/-
  The order of pipelined responses (src/http-server/client/index.js).
-/
import Velocious.HttpServer.PipelinedResponses

namespace Velocious

open Foundation List

namespace PipelineWorld

theorem close_notMem_responseEvents {date : String} {request : ClientRequest}
    {response : ClientResponse} {prepared : PreparedResponse} :
    ClientEvent.close ∉ responseEvents date request response prepared := by
  intro h
  obtain h | h := mem_cons.mp h
  · cases h
  · split at h
    · obtain h | h := mem_cons.mp h
      · cases h
      · exact absurd h not_mem_nil
    · split at h
      · obtain ⟨chunk, -, hchunk⟩ := mem_map.mp h
        cases hchunk
      · exact absurd h not_mem_nil

section
variable {date : ℕ → String} {w : PipelineWorld}

theorem close_notMem_answers : ClientEvent.close ∉ w.answers date := by
  intro h
  obtain ⟨i, -, h⟩ := mem_flatMap.mp h
  unfold answer at h
  split at h
  · exact close_notMem_responseEvents h
  · exact absurd h not_mem_nil

theorem answers_congr {w' : PipelineWorld} (hsent : w'.sent = w.sent)
    (hrunners : ∀ i < w.sent.length, w'.runners[i]? = w.runners[i]?) :
    w'.answers date = w.answers date := by
  rw [answers, hsent]
  refine flatMap_congr fun i hi => ?_
  rw [answer, answer, hsent, hrunners i (mem_range.mp hi)]

theorem answers_emit {request : ClientRequest} {response : ClientResponse}
    {prepared : PreparedResponse}
    (hnext : w.runners[w.sent.length]? = some ⟨request, some response⟩) :
    (w.emitResponse date request response prepared).answers date =
      w.answers date ++ responseEvents (date w.sent.length) request response prepared := by
  simp only [answers, emitResponse, length_append, length_singleton, range_succ,
    flatMap_append, flatMap_singleton]
  congr 1
  · refine flatMap_congr fun i hi => ?_
    simp only [answer, getElem?_append_left (mem_range.mp hi)]
  · simp only [answer, hnext, getElem?_concat_length]

end

/-! ## The invariant -/

/-- The runner whose turn it is, if there is one, is not done. -/
def HeadWaits (w : PipelineWorld) : Prop :=
  ∀ runner, w.runners[w.shifted]? = some runner → runner.response = none

/-- What may follow the responses: the close of the last request, the answer to a
    malformed one or to an upgrade. -/
inductive Final (runners : List PipelinedRunner) (upgraded : Bool) : List ClientEvent → Prop where
  | close {n : ℕ} {runner : PipelinedRunner} (last : runners[n]? = some runner)
      (length : n + 1 = runners.length) (closes : shouldCloseConnection runner.request = true) :
      Final runners upgraded [.close]
  | bad (httpVersion message : String) :
      Final runners upgraded (badResponseEvents httpVersion message)
  | upgraded (httpVersion acceptKey : String) (h : upgraded = true)
      (keepAlive : ∀ runner ∈ runners, shouldCloseConnection runner.request = false) :
      Final runners upgraded (switchingProtocols httpVersion acceptKey)

/-- The events are the answers, and once all are given, an end. -/
def Emitted (date : ℕ → String) (w : PipelineWorld) : Prop :=
  (w.events = w.answers date ∧ w.upgraded = false) ∨
    ∃ tail, w.events = w.answers date ++ tail ∧ w.sent.length = w.runners.length ∧
      Final w.runners w.upgraded tail

/-- Everything but where the drain is. -/
structure Core (date : ℕ → String) (w : PipelineWorld) : Prop where
  done : ∀ i < w.shifted, ∃ request response, w.runners[i]? = some ⟨request, some response⟩
  sent_le : w.sent.length ≤ w.shifted
  content : ∀ runner ∈ w.runners, ∀ response ∈ runner.response, response.hasContent = true
  rejections : w.rejections = 0
  closing : ∀ i runner, w.runners[i]? = some runner →
    shouldCloseConnection runner.request = true → i + 1 = w.runners.length
  emitted : w.Emitted date

/-- The response of the last runner that was shifted has been emitted, and the
    connection has not been closed if it is to be closed for it. -/
def Sent (w : PipelineWorld) (request : ClientRequest) : Prop :=
  w.shifted = w.sent.length ∧
    (∃ response n, w.sent.length = n + 1 ∧ w.runners[n]? = some ⟨request, some response⟩) ∧
    (shouldCloseConnection request = true → ClientEvent.close ∉ w.events)

def StageOk (w : PipelineWorld) : ResponseStage → Prop
  | .idle => w.shifted = w.sent.length ∧ w.HeadWaits
  | .preparing request response => w.shifted = w.sent.length + 1 ∧
      w.runners[w.sent.length]? = some ⟨request, some response⟩
  | .transferring request | .logging request => w.Sent request
  | .throwing => False
  | .returning => w.shifted = w.sent.length ∧ (w.pending = false → w.HeadWaits)

/-- The invariant of the pipeline. -/
structure Ok (date : ℕ → String) (w : PipelineWorld) : Prop where
  core : w.Core date
  stage : w.StageOk w.stage

variable {date : ℕ → String} {w : PipelineWorld}

theorem ok_init : Ok date init where
  core := by
    refine ⟨fun i h => ?_, le_rfl, fun runner h => ?_, rfl, fun i runner h => ?_, .inl ⟨rfl, rfl⟩⟩
    · exact absurd h (Nat.not_lt_zero i)
    · exact absurd h not_mem_nil
    · cases h
  stage := ⟨rfl, fun _ h => nomatch h⟩

theorem Final.close_mem {runners : List PipelinedRunner} {tail : List ClientEvent}
    (h : Final runners false tail) : ClientEvent.close ∈ tail := by
  cases h with
  | close _ _ _ => exact mem_cons_self
  | bad _ _ => exact mem_cons_of_mem _ mem_cons_self
  | upgraded _ _ h _ => cases h

theorem Final.dropLast {runners : List PipelinedRunner} {upgraded : Bool}
    {tail : List ClientEvent} (h : Final runners upgraded tail) :
    tail ≠ [] ∧ ClientEvent.close ∉ tail.dropLast := by
  cases h with
  | close _ _ _ => exact ⟨cons_ne_nil _ _, not_mem_nil⟩
  | bad _ _ =>
    refine ⟨cons_ne_nil _ _, fun h => ?_⟩
    cases mem_singleton.mp h
  | upgraded _ _ _ _ => exact ⟨cons_ne_nil _ _, not_mem_nil⟩

section
variable (hw : w.Core date)
include hw

theorem Core.shifted_le : w.shifted ≤ w.runners.length := by
  by_contra hlt
  obtain ⟨request, response, h⟩ := hw.done w.runners.length (not_le.mp hlt)
  rw [getElem?_eq_none le_rfl] at h
  cases h

theorem Core.answering (h : w.sent.length < w.runners.length) :
    w.events = w.answers date ∧ w.upgraded = false := by
  obtain hanswering | ⟨tail, -, hall, -⟩ := hw.emitted
  · exact hanswering
  · exact absurd hall h.ne

theorem Core.answering_of_open (hopen : w.Open) :
    w.events = w.answers date ∧ w.upgraded = false := by
  obtain hanswering | ⟨tail, hevents, -, hfinal⟩ := hw.emitted
  · exact hanswering
  · rw [hopen.upgraded] at hfinal
    refine absurd ?_ hopen.close
    rw [hevents]
    exact mem_append_right _ hfinal.close_mem

theorem Core.emit {request : ClientRequest} {response : ClientResponse}
    {prepared : PreparedResponse} (hshifted : w.shifted = w.sent.length + 1)
    (hnext : w.runners[w.sent.length]? = some ⟨request, some response⟩) :
    Ok date (w.emitResponse date request response prepared) := by
  obtain ⟨hevents, hupgraded⟩ := hw.answering (List.getElem?_eq_some_iff.mp hnext).1
  have hanswers : (w.emitResponse date request response prepared).answers date =
      w.answers date ++ responseEvents (date w.sent.length) request response prepared :=
    answers_emit hnext
  have hafter : (w.emitResponse date request response prepared).events =
      (w.emitResponse date request response prepared).answers date := by
    rw [hanswers, ← hevents]
    rfl
  have hlength : (w.sent ++ [prepared]).length = w.sent.length + 1 := by simp
  have hsent : (w.emitResponse date request response prepared).Sent request := by
    refine ⟨hshifted.trans hlength.symm, ⟨response, w.sent.length, hlength, hnext⟩, fun _ => ?_⟩
    rw [hafter]
    exact close_notMem_answers
  constructor
  · exact ⟨hw.done, (hlength.trans hshifted.symm).le, hw.content, hw.rejections, hw.closing,
      .inl ⟨hafter, hupgraded⟩⟩
  · simp only [emitResponse]
    split
    · exact hsent
    · exact hsent

theorem Core.sendDoneRequests (hshifted : w.shifted = w.sent.length) :
    Ok date (w.sendDoneRequests date) := by
  have hhead : w.requestRunners[0]? = w.runners[w.sent.length]? := by
    rw [requestRunners, getElem?_drop, Nat.add_zero, hshifted]
  unfold PipelineWorld.sendDoneRequests
  split
  · rename_i request response rest hqueue
    have hnext : w.runners[w.sent.length]? = some ⟨request, some response⟩ := by
      rw [← hhead, hqueue]
      rfl
    have hsucc : w.shifted + 1 = w.sent.length + 1 := by rw [hshifted]
    have hcore : Core date { w with shifted := w.shifted + 1 } := by
      refine ⟨fun i hi => ?_, hw.sent_le.trans (Nat.le_succ _), hw.content, hw.rejections,
        hw.closing, hw.emitted⟩
      obtain hi | rfl := Nat.lt_succ_iff_lt_or_eq.mp hi
      · exact hw.done i hi
      · exact ⟨request, response, hshifted ▸ hnext⟩
    have hcontent := hw.content _ (mem_of_getElem? hnext) response rfl
    split
    · rename_i hnone
      rw [hcontent] at hnone
      cases hnone
    · split
      · exact hcore.emit hsucc hnext
      · exact ⟨⟨hcore.done, hcore.sent_le, hcore.content, hcore.rejections, hcore.closing,
          hcore.emitted⟩, hsucc, hnext⟩
  · rename_i hqueue
    refine ⟨⟨hw.done, hw.sent_le, hw.content, hw.rejections, hw.closing, hw.emitted⟩, hshifted,
      fun _ runner hrunner => ?_⟩
    obtain ⟨request, _ | response⟩ := runner
    · rfl
    · have hqueued : w.requestRunners[0]? = some ⟨request, some response⟩ := by
        rw [hhead, ← hshifted]
        exact hrunner
      obtain ⟨rest, hrest⟩ : ∃ rest, w.requestRunners = ⟨request, some response⟩ :: rest := by
        cases hrunners : w.requestRunners with
        | nil => rw [hrunners] at hqueued; cases hqueued
        | cons head rest =>
          rw [hrunners] at hqueued
          cases hqueued
          exact ⟨rest, rfl⟩
      exact absurd hrest (hqueue request response rest)

end

theorem Ok.requestDone (hcore : w.Core date)
    (hstage : w.stage = .idle → w.shifted = w.sent.length)
    (hactive : w.stage ≠ .idle → StageOk { w with pending := true } w.stage) :
    Ok date (w.requestDone date) := by
  unfold PipelineWorld.requestDone
  split
  · rename_i hidle
    exact Core.sendDoneRequests (w := { w with pending := false })
      ⟨hcore.done, hcore.sent_le, hcore.content, hcore.rejections, hcore.closing, hcore.emitted⟩
      (hstage hidle)
  · rename_i hidle
    exact ⟨⟨hcore.done, hcore.sent_le, hcore.content, hcore.rejections, hcore.closing,
      hcore.emitted⟩, hactive hidle⟩

theorem Ok.request (hw : Ok date w) (hopen : w.Open) (request : ClientRequest) :
    Ok date { w with runners := w.runners ++ [⟨request, none⟩] } := by
  have hcore := hw.core
  have hget : ∀ {i : ℕ}, i < w.runners.length →
      (w.runners ++ [⟨request, none⟩])[i]? = w.runners[i]? := getElem?_append_left
  have hold : ∀ {i : ℕ} {runner}, w.runners[i]? = some runner →
      (w.runners ++ [⟨request, none⟩])[i]? = some runner := fun h =>
    (hget (List.getElem?_eq_some_iff.mp h).1).trans h
  have hwaits : w.HeadWaits →
      HeadWaits { w with runners := w.runners ++ [⟨request, none⟩] } := by
    intro hw runner hrunner
    obtain hlt | heq := hcore.shifted_le.lt_or_eq
    · exact hw runner ((hget hlt).symm.trans hrunner)
    · rw [heq, getElem?_concat_length] at hrunner
      cases hrunner
      rfl
  obtain ⟨hevents, hupgraded⟩ := hcore.answering_of_open hopen
  refine ⟨⟨fun i hi => ?_, hcore.sent_le, fun runner hrunner => ?_, hcore.rejections,
    fun i runner hrunner hcloses => ?_, .inl ⟨?_, hupgraded⟩⟩, ?_⟩
  · obtain ⟨request, response, h⟩ := hcore.done i hi
    exact ⟨request, response, hold h⟩
  · obtain hrunner | hrunner := mem_append.mp hrunner
    · exact hcore.content runner hrunner
    · obtain rfl := mem_singleton.mp hrunner
      exact fun response h => absurd h (Option.not_mem_none _)
  · have hlt := (List.getElem?_eq_some_iff.mp hrunner).1
    rw [length_append] at hlt ⊢
    obtain hlt | rfl := Nat.lt_succ_iff_lt_or_eq.mp hlt
    · rw [hget hlt] at hrunner
      exact absurd hcloses (by simp [hopen.keepAlive runner (mem_of_getElem? hrunner)])
    · rfl
  · have hanswers : answers date { w with runners := w.runners ++ [⟨request, none⟩] } =
        w.answers date :=
      answers_congr rfl fun i hi => hget (hi.trans_le (hcore.sent_le.trans hcore.shifted_le))
    exact hevents.trans hanswers.symm
  · have hstage := hw.stage
    cases hs : w.stage <;> simp only [hs] at hstage ⊢
    case idle => exact ⟨hstage.1, hwaits hstage.2⟩
    case preparing => exact ⟨hstage.1, hold hstage.2⟩
    case transferring | logging =>
      obtain ⟨hshifted, ⟨response, n, hn, hlast⟩, hclose⟩ := hstage
      exact ⟨hshifted, ⟨response, n, hn, hold hlast⟩, hclose⟩
    case throwing => exact hstage
    case returning => exact ⟨hstage.1, fun hpending => hwaits (hstage.2 hpending)⟩

theorem Ok.end (hw : Ok date w) (hopen : w.Open) (hall : w.sent.length = w.runners.length)
    {tail : List ClientEvent} {upgraded : Bool} (hfinal : Final w.runners upgraded tail) :
    Ok date { w with events := w.events ++ tail, upgraded } := by
  have hcore := hw.core
  refine ⟨⟨hcore.done, hcore.sent_le, hcore.content, hcore.rejections, hcore.closing,
    .inr ⟨tail, ?_, hall, hfinal⟩⟩, ?_⟩
  · rw [(hcore.answering_of_open hopen).1]
    rfl
  · have hstage := hw.stage
    cases hs : w.stage <;> simp only [hs] at hstage ⊢
    case transferring | logging =>
      obtain ⟨hshifted, ⟨response, n, hn, hlast⟩, -⟩ := hstage
      refine ⟨hshifted, ⟨response, n, hn, hlast⟩, fun hcloses => absurd hcloses ?_⟩
      simp [hopen.keepAlive _ (mem_of_getElem? hlast)]
    all_goals exact hstage

theorem Ok.complete (hw : Ok date w) {i : ℕ} {request : ClientRequest} {response : ClientResponse}
    (hrunner : w.runners[i]? = some ⟨request, none⟩) (hcontent : response.hasContent = true) :
    Ok date ({ w with runners := w.runners.set i ⟨request, some response⟩ }.requestDone date) := by
  have hcore := hw.core
  have hi : w.shifted ≤ i := by
    by_contra hlt
    obtain ⟨request, response, h⟩ := hcore.done i (not_le.mp hlt)
    rw [hrunner] at h
    cases h
  have hget : ∀ {j : ℕ}, j ≠ i →
      (w.runners.set i ⟨request, some response⟩)[j]? = w.runners[j]? := fun hj =>
    getElem?_set_ne hj.symm
  have hold : ∀ {j : ℕ} {request' response'},
      w.runners[j]? = some (PipelinedRunner.mk request' (some response')) →
      (w.runners.set i ⟨request, some response⟩)[j]? =
        some (PipelinedRunner.mk request' (some response')) := by
    intro j request' response' h
    refine (hget fun hj => ?_).trans h
    rw [hj, hrunner] at h
    cases h
  have hrequest : ∀ {j : ℕ} {runner}, (w.runners.set i ⟨request, some response⟩)[j]? = some runner →
      ∃ old, w.runners[j]? = some old ∧ old.request = runner.request := by
    intro j runner h
    by_cases hj : j = i
    · subst hj
      rw [List.getElem?_set_self (List.getElem?_eq_some_iff.mp hrunner).1] at h
      cases h
      exact ⟨_, hrunner, rfl⟩
    · exact ⟨runner, (hget hj).symm.trans h, rfl⟩
  have hlength : (w.runners.set i ⟨request, some response⟩).length = w.runners.length :=
    length_set
  have hnew : Core date { w with runners := w.runners.set i ⟨request, some response⟩ } := by
    refine ⟨fun j hj => ?_, hcore.sent_le, fun runner hmem => ?_, hcore.rejections,
      fun j runner hj hcloses => ?_, .inl ?_⟩
    · obtain ⟨request', response', h⟩ := hcore.done j hj
      exact ⟨request', response', hold h⟩
    · obtain hmem | rfl := mem_or_eq_of_mem_set hmem
      · exact hcore.content runner hmem
      · rintro _ ⟨⟩
        exact hcontent
    · obtain ⟨old, hold, heq⟩ := hrequest hj
      exact (hcore.closing j old hold (heq ▸ hcloses)).trans hlength.symm
    · have hanswers : answers date { w with runners := w.runners.set i ⟨request, some response⟩ } =
          w.answers date :=
        answers_congr rfl fun j hj => hget (hj.trans_le (hcore.sent_le.trans hi)).ne
      have hmissing := (hcore.sent_le.trans hi).trans_lt (List.getElem?_eq_some_iff.mp hrunner).1
      obtain ⟨hevents, hupgraded⟩ := hcore.answering hmissing
      exact ⟨hevents.trans hanswers.symm, hupgraded⟩
  have hstage := hw.stage
  refine Ok.requestDone hnew (fun hidle => ?_) fun hactive => ?_
  · rw [hidle] at hstage
    exact hstage.1
  · cases hs : w.stage <;> simp only [hs] at hstage hactive ⊢
    case idle => exact absurd rfl hactive
    case preparing => exact ⟨hstage.1, hold hstage.2⟩
    case transferring | logging =>
      obtain ⟨hshifted, ⟨old, n, hn, hlast⟩, hclose⟩ := hstage
      refine ⟨hshifted, ⟨old, n, hn, (hget ?_).trans hlast⟩, hclose⟩
      omega
    case throwing => exact hstage
    case returning => exact ⟨hstage.1, fun h => nomatch h⟩

theorem Ok.logged (hw : Ok date w) {request : ClientRequest} (hstage : w.stage = .logging request) :
    Core date { w with events := w.events ++
      if shouldCloseConnection request then [ClientEvent.close] else [] } := by
  have hcore := hw.core
  have hsent : w.Sent request := by
    have h := hw.stage
    rwa [hstage] at h
  obtain ⟨-, ⟨response, n, hn, hlast⟩, hclose⟩ := hsent
  split
  · rename_i hcloses
    have hall : w.sent.length = w.runners.length := hn.trans (hcore.closing n _ hlast hcloses)
    refine ⟨hcore.done, hcore.sent_le, hcore.content, hcore.rejections, hcore.closing,
      .inr ⟨[.close], ?_, hall, .close hlast (hn.symm.trans hall) hcloses⟩⟩
    obtain ⟨hevents, -⟩ | ⟨tail, hevents, -, hfinal⟩ := hcore.emitted
    · rw [hevents]
      rfl
    · rw [hevents] at hclose
      cases hfinal with
      | close _ _ _ => exact absurd (mem_append_right _ mem_cons_self) (hclose hcloses)
      | bad _ _ =>
        refine absurd (mem_append_right _ ?_) (hclose hcloses)
        exact mem_cons_of_mem _ mem_cons_self
      | upgraded _ _ _ hkeep =>
        have h := hkeep _ (mem_of_getElem? hlast)
        rw [hcloses] at h
        cases h
  · rw [append_nil]
    exact hcore

theorem Ok.step {accept : String → String} {action : PipelineAction} {w' : PipelineWorld}
    (hw : Ok date w) (hok : w.Orderly action) (h : w.step date accept action = some w') :
    Ok date w' := by
  cases action with
  | request request =>
    dsimp only [PipelineWorld.step] at h
    split at h
    · cases h
    · cases h
      exact hw.request hok request
  | badRequest =>
    dsimp only [PipelineWorld.step] at h
    split at h
    · cases h
    · cases h
      exact hw.end hok.1 hok.2 (.bad "1.1" "Bad Request")
  | upgrade httpVersion key =>
    dsimp only [PipelineWorld.step] at h
    split at h
    · cases h
    · split at h
      · cases h
        exact hw.end hok.1 hok.2 (.bad httpVersion _)
      · cases h
        exact hw.end hok.1 hok.2 (.upgraded httpVersion _ rfl hok.1.keepAlive)
  | complete i response =>
    dsimp only [PipelineWorld.step] at h
    split at h
    · rename_i hrunner
      cases h
      exact hw.complete hrunner hok
    · cases h
  | prepared prepared =>
    dsimp only [PipelineWorld.step] at h
    split at h
    · rename_i hstage
      have hpreparing := hw.stage
      rw [hstage] at hpreparing
      split at h
      · cases h
        exact hw.core.emit hpreparing.1 hpreparing.2
      · cases h
    · cases h
  | transferred =>
    dsimp only [PipelineWorld.step] at h
    split at h
    · rename_i hstage
      have hsent := hw.stage
      rw [hstage] at hsent
      cases h
      have hcore := hw.core
      exact ⟨⟨hcore.done, hcore.sent_le, hcore.content, hcore.rejections, hcore.closing,
        hcore.emitted⟩, hsent⟩
    · cases h
  | logged =>
    dsimp only [PipelineWorld.step] at h
    split at h
    · rename_i request hstage
      have hsent := hw.stage
      rw [hstage] at hsent
      cases h
      exact (hw.logged hstage).sendDoneRequests hsent.1
    · cases h
  | fail => exact hok.elim
  | returned =>
    dsimp only [PipelineWorld.step] at h
    split at h
    · rename_i hstage
      have hreturning := hw.stage
      rw [hstage] at hreturning
      have hcore := hw.core
      split at h
      · cases h
        exact Core.sendDoneRequests (w := { w with pending := false }) ⟨hcore.done, hcore.sent_le,
          hcore.content, hcore.rejections, hcore.closing, hcore.emitted⟩ hreturning.1
      · rename_i hpending
        cases h
        exact ⟨⟨hcore.done, hcore.sent_le, hcore.content, hcore.rejections, hcore.closing,
          hcore.emitted⟩, hreturning.1, hreturning.2 (Bool.eq_false_iff.mpr hpending)⟩
    · cases h
  | rejected =>
    dsimp only [PipelineWorld.step] at h
    rw [hw.core.rejections] at h
    cases h

theorem Core.close_last (hw : w.Core date) : ClientEvent.close ∉ w.events.dropLast := by
  have hanswers : ClientEvent.close ∉ w.answers date := close_notMem_answers
  obtain ⟨hevents, -⟩ | ⟨tail, hevents, -, hfinal⟩ := hw.emitted
  · rw [hevents]
    exact fun h => hanswers (mem_of_mem_dropLast h)
  · obtain ⟨hne, hlast⟩ := hfinal.dropLast
    rw [hevents, dropLast_append_of_ne_nil hne]
    intro h
    obtain h | h := mem_append.mp h
    · exact hanswers h
    · exact hlast h

theorem Ok.returned (hw : Ok date w) (accept : String → String) {request : ClientRequest}
    {response : ClientResponse}
    (hnext : w.runners[w.sent.length]? = some ⟨request, some response⟩)
    (hstage : w.stage = .idle ∨ w.stage = .returning) :
    ∃ w', w.step date accept .returned = some w' ∧
      (w'.stage = .preparing request response ∨ w'.sent.length = w.sent.length + 1) := by
  have hdone : w.shifted = w.sent.length → ¬ w.HeadWaits := fun hshifted hwaits =>
    nomatch hwaits _ ((congrArg (w.runners[·]?) hshifted).trans hnext)
  have h := hw.stage
  obtain hidle | hreturning := hstage
  · rw [hidle] at h
    exact absurd h.2 (hdone h.1)
  · rw [hreturning] at h
    have hpending : w.pending = true := by
      by_contra hpending
      exact hdone h.1 (h.2 (Bool.eq_false_iff.mpr hpending))
    have hstep : w.step date accept .returned =
        some ({ w with pending := false }.sendDoneRequests date) := by
      simp [PipelineWorld.step, hreturning, hpending]
    have hqueue : w.requestRunners = ⟨request, some response⟩ :: w.runners.drop (w.shifted + 1) := by
      rw [← h.1] at hnext
      obtain ⟨hlt, hget⟩ := List.getElem?_eq_some_iff.mp hnext
      rw [requestRunners, drop_eq_getElem_cons hlt, hget]
    have hcontent := hw.core.content _ (mem_of_getElem? hnext) response rfl
    refine ⟨_, hstep, ?_⟩
    have htake : { w with pending := false }.requestRunners =
        ⟨request, some response⟩ :: w.runners.drop (w.shifted + 1) := hqueue
    simp only [PipelineWorld.sendDoneRequests, htake, hcontent, Bool.not_true, Bool.false_eq_true,
      if_false]
    split
    · exact .inr (by simp [emitResponse])
    · exact .inl rfl

theorem Ok.all_sent (hw : Ok date w) (hidle : w.stage = .idle)
    (hdone : ∀ runner ∈ w.runners, runner.response ≠ none) :
    w.sent.length = w.runners.length := by
  have h := hw.stage
  rw [hidle] at h
  refine le_antisymm (hw.core.sent_le.trans hw.core.shifted_le) (not_lt.mp fun hlt => ?_)
  rw [← h.1] at hlt
  exact hdone _ (getElem_mem hlt) (h.2 _ (getElem?_eq_getElem hlt))

/-- **Responses in order.** On a connection that is used in order, what is
    emitted is the responses of the requests in their order, each once, and then
    at most one 400 or 101 or close, after all of them; nothing follows a close.
    While no response is being written the drain takes the next request if it is
    done, and it does not end before every request that is done is answered. -/
theorem responses_in_order {accept : String → String} {actions : List PipelineAction}
    {w : PipelineWorld}
    (horderly : Along (PipelineWorld.step date accept) Orderly init actions)
    (hrun : runActions (PipelineWorld.step date accept) init actions = some w) :
    (∃ tail, w.events = w.answers date ++ tail ∧ w.sent.length ≤ w.runners.length ∧
      (tail = [] ∨ w.sent.length = w.runners.length ∧ Final w.runners w.upgraded tail)) ∧
    (∀ i < w.sent.length, ∃ request response prepared,
      w.runners[i]? = some ⟨request, some response⟩ ∧ w.sent[i]? = some prepared ∧
      w.answer date i = responseEvents (date i) request response prepared) ∧
    ClientEvent.close ∉ w.events.dropLast ∧
    (∀ request response, w.runners[w.sent.length]? = some ⟨request, some response⟩ →
      w.stage = .idle ∨ w.stage = .returning →
      ∃ w', w.step date accept .returned = some w' ∧
        (w'.stage = .preparing request response ∨ w'.sent.length = w.sent.length + 1)) ∧
    (w.stage = .idle → (∀ runner ∈ w.runners, runner.response ≠ none) →
      w.sent.length = w.runners.length) := by
  have hw : Ok date w := runActions_invariant (I := Ok date)
    (fun _ _ _ hs hok h => hs.step hok h) actions ok_init horderly hrun
  refine ⟨?_, fun i hi => ?_, hw.core.close_last, fun request response hnext hstage =>
    hw.returned accept hnext hstage, hw.all_sent⟩
  · have hle := hw.core.sent_le.trans hw.core.shifted_le
    obtain ⟨hevents, -⟩ | ⟨tail, hevents, hall, hfinal⟩ := hw.core.emitted
    · exact ⟨[], by rw [hevents, append_nil], hle, .inl rfl⟩
    · exact ⟨tail, hevents, hle, .inr ⟨hall, hfinal⟩⟩
  · obtain ⟨request, response, hrunner⟩ := hw.core.done i (hi.trans_le hw.core.sent_le)
    have hsent : w.sent[i]? = some w.sent[i] := getElem?_eq_getElem hi
    exact ⟨request, response, w.sent[i], hrunner, hsent, by rw [answer, hrunner, hsent]⟩

end PipelineWorld

/-! ## Pipelined requests -/

/-- A request that keeps the connection, and one that closes it. -/
def keepRequest : ClientRequest := ⟨"GET", "1.1", none⟩
def closeRequest : ClientRequest := ⟨"GET", "1.1", some "close"⟩

def okResponse (body : String) : ClientResponse := ⟨200, "OK", [], some (.text body), none⟩

/-- Two requests, of which the second is done first. -/
def twoRequests : List PipelineAction :=
  [.request keepRequest, .request closeRequest, .complete 1 (okResponse "b"), .returned,
    .complete 0 (okResponse "a"), .prepared (.identity []), .logged, .prepared (.identity []),
    .logged]

theorem shouldClose_keepRequest : shouldCloseConnection keepRequest = false := by decide +kernel

theorem shouldClose_closeRequest : shouldCloseConnection closeRequest = true := by decide +kernel

/-- The date of every response. -/
def epoch (_ : ℕ) : String := "Thu, 01 Jan 1970 00:00:00 GMT"

def pipelineStep : PipelineWorld → PipelineAction → Option PipelineWorld :=
  PipelineWorld.step epoch id

theorem twoRequests_orderly : Along pipelineStep PipelineWorld.Orderly .init twoRequests := by
  refine ⟨⟨rfl, not_mem_nil, fun _ h => absurd h not_mem_nil⟩,
    ⟨rfl, not_mem_nil, fun runner h => ?_⟩, rfl, trivial, rfl, trivial, trivial, trivial,
    trivial, trivial⟩
  rw [mem_singleton.mp h]
  exact shouldClose_keepRequest

theorem responses_in_order_twoRequests :
    ∃ w, runActions pipelineStep .init twoRequests = some w ∧ w.sent.length = 2 ∧
      (∃ tail, w.events = w.answers epoch ++ tail ∧
        w.sent.length ≤ w.runners.length ∧
        (tail = [] ∨ w.sent.length = w.runners.length ∧
          PipelineWorld.Final w.runners w.upgraded tail)) ∧
      ClientEvent.close ∉ w.events.dropLast := by
  obtain ⟨w, hrun, hsent⟩ :
      ∃ w, runActions pipelineStep .init twoRequests = some w ∧ w.sent.length = 2 := ⟨_, rfl, rfl⟩
  obtain ⟨hevents, -, hclose, -, -⟩ :=
    PipelineWorld.responses_in_order twoRequests_orderly hrun
  exact ⟨w, hrun, hsent, hevents, hclose⟩

/-- **Answered out of order.** A malformed request is answered before a request
    that was received before it; and what is pipelined behind a request that closes
    the connection is answered after the close. -/
theorem answered_out_of_order :
    (∃ w, runActions pipelineStep .init
        [.request keepRequest, .badRequest, .complete 0 (okResponse "a"),
          .prepared (.identity [])] = some w ∧
      w.events = badResponseEvents "1.1" "Bad Request" ++
        responseEvents (epoch 0) keepRequest (okResponse "a") (.identity [])) ∧
    ∃ w, runActions pipelineStep .init
        [.request closeRequest, .request keepRequest, .complete 0 (okResponse "a"),
          .complete 1 (okResponse "b"), .prepared (.identity []), .logged,
          .prepared (.identity [])] = some w ∧
      w.events = responseEvents (epoch 0) closeRequest (okResponse "a") (.identity []) ++
        .close :: responseEvents (epoch 1) keepRequest (okResponse "b") (.identity []) := by
  have hclose : responseEvents (epoch 0) closeRequest (okResponse "a") (.identity []) ++
        (if shouldCloseConnection closeRequest = true then [ClientEvent.close] else []) ++
        responseEvents (epoch 1) keepRequest (okResponse "b") (.identity []) =
      responseEvents (epoch 0) closeRequest (okResponse "a") (.identity []) ++ .close ::
        responseEvents (epoch 1) keepRequest (okResponse "b") (.identity []) := by
    rw [if_pos shouldClose_closeRequest, append_assoc]
    rfl
  exact ⟨⟨_, rfl, rfl⟩, _, rfl, hclose⟩

end Velocious
