/-
  From the bytes of a connection to requests (src/http-server/client: `onWrite`
  and `executeCurrentRequest`).

  `serves`: as long as no request asks for an upgrade, the client executes the
  items of the request buffer, one after another, wherever the bytes were cut.

  * `outcomes` lists what became of the bytes: the requests that were executed (what a
    handler then does with them is not looked at), upgrades, and answers to bad requests.
  * A websocket session stays open; what it does with its bytes, and a message handler
    that throws while it is looked up, are left out.
-/
import Velocious.HttpServer.RequestReading

namespace Velocious

open Foundation List

/-- What a handler sees of a request. -/
structure ExecutedRequest (π : Type) where
  httpMethod : Option String
  path : Option String
  httpVersion : Option String
  headers : HeaderTable
  postBody : Option (List UInt8)
  params : List π

def RequestBuffer.request {π : Type} (b : RequestBuffer π) : ExecutedRequest π :=
  ⟨b.httpMethod, b.path, b.httpVersion, b.headersByName, b.postBody, b.params⟩

/-- What became of a request. -/
inductive RequestOutcome (π : Type) where
  | executed (request : ExecutedRequest π)
  | upgraded
  | badUpgrade
  | badRequest
  | websocketData (data : List UInt8)

/-- What a client is at. -/
inductive RequestClientState where
  | initial
  | requestStarted
  | websocket
  deriving DecidableEq

/-- A connection's parser. -/
structure RequestClient (π : Type) where
  state : RequestClientState
  currentRequest : Option (RequestBuffer π)
  websocketSession : Bool
  outcomes : List (RequestOutcome π)

namespace RequestClient

variable {π : Type} (decoder : BodyDecoder π)

def initial : RequestClient π := ⟨.initial, none, false, []⟩

def isWebsocketUpgrade (request : RequestBuffer π) : Bool :=
  (request.header "upgrade").map toLowerCase = some "websocket" &&
    ((request.header "connection").map fun value => includes (toLowerCase value) "upgrade")
      = some true

def upgradeToWebsocket (c : RequestClient π) (request : RequestBuffer π) : RequestClient π :=
  if orNull (request.header "sec-websocket-key") = none then
    { c with outcomes := c.outcomes ++ [.badUpgrade] }
  else
    { c with
      websocketSession := true, state := .websocket, outcomes := c.outcomes ++ [.upgraded] }

def executeCurrentRequest (c : RequestClient π) (request : RequestBuffer π) : RequestClient π :=
  let c := { c with currentRequest := some request }
  if isWebsocketUpgrade request then c.upgradeToWebsocket request
  else { c with state := .initial, outcomes := c.outcomes ++ [.executed request.request] }

def handleBadRequest (c : RequestClient π) : RequestClient π :=
  { c with currentRequest := none, state := .initial, outcomes := c.outcomes ++ [.badRequest] }

/-- A new request, if none was started. -/
def startRequest (c : RequestClient π) : RequestClient π :=
  if c.state = .initial then { c with currentRequest := some .empty, state := .requestStarted }
  else c

/-- One turn of the loop of `onWrite`, and the bytes that remain for the next one. -/
def writeOnce (c : RequestClient π) (data : List UInt8) : RequestClient π × List UInt8 :=
  let c := c.startRequest
  match c.state, c.currentRequest with
  | .requestStarted, some request =>
    if request.completed then (c.handleBadRequest, [])
    else
      match request.feed decoder data with
      | .error _ => (c.handleBadRequest, [])
      | .ok (request, none) => ({ c with currentRequest := some request }, [])
      | .ok (request, some remaining) =>
        let c := c.executeCurrentRequest request
        ({ c with state := if remaining = [] then c.state else .initial }, remaining)
  | _, _ => (c.handleBadRequest, [])

def writeTurns : ℕ → RequestClient π → List UInt8 → RequestClient π
  | 0, c, _ => c
  | n + 1, c, data =>
    if data = [] then c
    else
      let next := c.writeOnce decoder data
      writeTurns n next.1 next.2

/-- `onWrite`; every turn takes a byte at least. -/
def onWrite (c : RequestClient π) (data : List UInt8) : RequestClient π :=
  if c.websocketSession then { c with outcomes := c.outcomes ++ [.websocketData data] }
  else c.writeTurns decoder data.length data

/-! ## The client and the request buffer -/

variable {decoder} {c : RequestClient π} {current current' : Option (RequestBuffer π)}
variable {data : List UInt8} {items : List (RequestBuffer π)}

/-- The client is in the middle of this request, or waits for one. -/
def Reading (c : RequestClient π) (current : Option (RequestBuffer π)) : Prop :=
  c.websocketSession = false ∧
    match current with
    | none => c.state = .initial
    | some request => c.state = .requestStarted ∧ c.currentRequest = some request ∧
        request.completed = false

/-- The items of the request buffer, one after another. -/
def serve (decoder : BodyDecoder π) (current : Option (RequestBuffer π)) (data : List UInt8) :=
  Reader.serve (RequestBuffer.feedOnce decoder) RequestBuffer.completed .empty current data

theorem Reading.startRequest (hc : c.Reading current) :
    c.startRequest =
        { c with currentRequest := some (current.getD .empty), state := .requestStarted } ∧
      (current.getD .empty).completed = false := by
  obtain ⟨-, hstate⟩ := hc
  cases current with
  | none => exact ⟨if_pos hstate, rfl⟩
  | some request =>
    obtain ⟨hstarted, hrequest, hcompleted⟩ := hstate
    obtain ⟨state, currentRequest, websocketSession, outcomes⟩ := c
    cases hstarted
    cases hrequest
    exact ⟨if_neg RequestClientState.noConfusion, hcompleted⟩

theorem writeOnce_error (hc : c.Reading current) {e : RequestError}
    (hfeed : (current.getD .empty).feed decoder data = .error e) :
    c.writeOnce decoder data = (c.handleBadRequest, []) := by
  obtain ⟨hstart, hcompleted⟩ := hc.startRequest
  simp only [writeOnce, hstart, hcompleted, hfeed]
  rfl

variable {request : RequestBuffer π}

theorem writeOnce_open (hc : c.Reading current)
    (hfeed : (current.getD .empty).feed decoder data = .ok (request, none)) :
    c.writeOnce decoder data =
      ({ c with state := .requestStarted, currentRequest := some request }, []) := by
  obtain ⟨hstart, hcompleted⟩ := hc.startRequest
  simp only [writeOnce, hstart, hcompleted, hfeed, Bool.false_eq_true, if_false]

section
variable (hc : c.Reading current) {remaining : List UInt8}
  (hfeed : (current.getD .empty).feed decoder data = .ok (request, some remaining))
include hc hfeed

theorem writeOnce_over :
    ∃ outcome ≠ RequestOutcome.badRequest,
      (c.writeOnce decoder data).1.outcomes = c.outcomes ++ [outcome] ∧
        (c.writeOnce decoder data).2 = remaining := by
  obtain ⟨hstart, hcompleted⟩ := hc.startRequest
  simp only [writeOnce, hstart, hcompleted, hfeed, Bool.false_eq_true, if_false,
    executeCurrentRequest, upgradeToWebsocket]
  split
  · split
    · exact ⟨.badUpgrade, by simp, rfl, trivial⟩
    · exact ⟨.upgraded, by simp, rfl, trivial⟩
  · exact ⟨.executed _, by simp, rfl, trivial⟩

theorem writeOnce_executed (hplain : isWebsocketUpgrade request = false) :
    c.writeOnce decoder data =
      ({ c with
          state := .initial, currentRequest := some request
          outcomes := c.outcomes ++ [.executed request.request] }, remaining) := by
  obtain ⟨hstart, hcompleted⟩ := hc.startRequest
  simp only [writeOnce, hstart, hcompleted, hfeed, executeCurrentRequest, hplain,
    Bool.false_eq_true, if_false, ite_self]

end

theorem writeTurns_nil (n : ℕ) : c.writeTurns decoder n [] = c := by
  cases n <;> rfl

theorem writeTurns_serve {n : ℕ} (hn : data.length ≤ n) (hc : c.Reading current)
    (hserve : serve decoder current data = .ok (items, current'))
    (hplain : ∀ request ∈ items, isWebsocketUpgrade request = false) :
    (c.writeTurns decoder n data).Reading current' ∧
      (c.writeTurns decoder n data).outcomes =
        c.outcomes ++ items.map fun request => .executed request.request := by
  have hlawful := RequestBuffer.feedOnce_lawful decoder
  induction hlength : data.length using Nat.strong_induction_on
    generalizing c current data items n with
  | _ k ih =>
    rcases eq_or_ne data [] with rfl | hne
    · cases hserve
      rw [writeTurns_nil, map_nil, append_nil]
      exact ⟨hc, rfl⟩
    obtain ⟨m, rfl⟩ : ∃ m, n = m + 1 :=
      ⟨n - 1, by have := length_pos_of_ne_nil hne; omega⟩
    have hturn : c.writeTurns decoder (m + 1) data =
        (c.writeOnce decoder data).1.writeTurns decoder m (c.writeOnce decoder data).2 := if_neg hne
    have hcompleted := hc.startRequest.2
    rw [hturn]
    cases hfeed : (current.getD .empty).feed decoder data with
    | error e => rw [serve, Reader.serve_of_error hne hfeed] at hserve; cases hserve
    | ok next =>
      obtain ⟨request, remaining⟩ := next
      cases remaining with
      | none =>
        rw [serve, Reader.serve_of_none hne hfeed] at hserve
        cases hserve
        rw [writeOnce_open hc hfeed, writeTurns_nil, map_nil, append_nil]
        exact ⟨⟨hc.1, rfl, rfl, Reader.feed_none hlawful hcompleted hfeed⟩, rfl⟩
      | some rest =>
        have hshort := (Reader.feed_some hlawful hfeed).1
        rw [serve, Reader.serve_of_some hlawful hne hfeed] at hserve
        cases hrest : serve decoder none rest with
        | error e => rw [← serve, hrest] at hserve; cases hserve
        | ok r =>
          rw [← serve, hrest] at hserve
          cases hserve
          rw [writeOnce_executed hc hfeed (hplain request mem_cons_self)]
          have hinitial : Reading
              { c with
                state := .initial, currentRequest := some request
                outcomes := c.outcomes ++ [.executed request.request] } none := ⟨hc.1, rfl⟩
          obtain ⟨hreading, houtcomes⟩ := ih rest.length (hlength ▸ hshort)
            (show rest.length ≤ m by omega) hinitial hrest
            (fun request h => hplain request (mem_cons_of_mem _ h)) rfl
          refine ⟨hreading, houtcomes.trans ?_⟩
          rw [append_assoc]
          rfl

/-- **The client executes the items of the request buffer, wherever the bytes are cut.** -/
theorem serves {chunks : List (List UInt8)} (hc : c.Reading current)
    (hserve : serve decoder current chunks.flatten = .ok (items, current'))
    (hplain : ∀ request ∈ items, isWebsocketUpgrade request = false) :
    (chunks.foldl (onWrite decoder) c).Reading current' ∧
      (chunks.foldl (onWrite decoder) c).outcomes =
        c.outcomes ++ items.map fun request => .executed request.request := by
  have hlawful := RequestBuffer.feedOnce_lawful decoder
  induction chunks generalizing c current items with
  | nil =>
    cases hserve
    rw [map_nil, append_nil]
    exact ⟨hc, rfl⟩
  | cons data chunks ih =>
    have hcurrent : ∀ request ∈ current, request.completed = false := by
      rintro request ⟨⟩
      exact hc.2.2.2
    have happend : serve decoder current (data ++ chunks.flatten) =
        (serve decoder current data).bind fun r =>
          (serve decoder r.2 chunks.flatten).map fun r' => (r.1 ++ r'.1, r'.2) :=
      Reader.serve_append hlawful rfl hcurrent data chunks.flatten
    rw [flatten_cons, happend] at hserve
    cases hfirst : serve decoder current data with
    | error e => rw [hfirst] at hserve; cases hserve
    | ok r =>
      obtain ⟨first, next⟩ := r
      rw [hfirst, Except.bind] at hserve
      cases hrest : serve decoder next chunks.flatten with
      | error e => rw [hrest] at hserve; cases hserve
      | ok r =>
        rw [hrest] at hserve
        cases hserve
        have hwrite : c.onWrite decoder data = c.writeTurns decoder data.length data :=
          if_neg (by rw [hc.1]; exact Bool.false_ne_true)
        obtain ⟨hreading, houtcomes⟩ := writeTurns_serve le_rfl hc hfirst fun request h =>
          hplain request (mem_append_left _ h)
        rw [foldl_cons, hwrite]
        obtain ⟨hend, hall⟩ := ih hreading hrest fun request h =>
          hplain request (mem_append_right _ h)
        refine ⟨hend, ?_⟩
        rw [hall, houtcomes, map_append, append_assoc]

end RequestClient

end Velocious
