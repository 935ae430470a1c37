/-
  Answering pipelined requests (src/http-server/client/index.js).

  A connection hands its requests to runners, which finish in any order; one
  drain at a time shifts finished runners from the queue and sends their
  responses, and a request for a drain while one is active is remembered. Bad
  requests and websocket upgrades are answered at once.

  * The runners of a connection are kept in one list, of which the queue is what
    has not been shifted.
  * A chunk is emitted as a whole, so a response is never split by another; the
    transport writes chunks and files in the order they are emitted.
  * Nothing is received after an upgrade; `onWrite` parses on what follows it in
    the same data.
  * `sent` is a history variable: how each response that was emitted was
    prepared.
-/
import Velocious.Foundation.Javascript
import Velocious.Foundation.Machine

namespace Velocious

open Foundation

/-! ## Requests and responses -/

/-- What is read of a parsed request; `connection` is a header. -/
structure ClientRequest where
  httpMethod : String
  httpVersion : String
  connection : Option String

/-- The body of a response. -/
inductive ResponseBody where
  | text (s : String)
  | bytes (data : List UInt8)

def ResponseBody.byteLength : ResponseBody → ℕ
  | text s => s.utf8ByteSize
  | bytes data => data.length

/-- What is read of a response. -/
structure ClientResponse where
  statusCode : ℕ
  statusMessage : String
  headers : List (String × List String)
  body : Option ResponseBody
  filePath : Option String

/-- What a client emits. -/
inductive ClientEvent where
  | output (chunk : ResponseBody)
  | file (filePath : String) (sendBody : Bool)
  | close

namespace ClientResponse

def setHeader (r : ClientResponse) (key value : String) : ClientResponse :=
  { r with headers :=
      if r.headers.any (·.1 = key) then
        r.headers.map fun h => if h.1 = key then (key, [value]) else h
      else r.headers ++ [(key, [value])] }

def removeHeader (r : ClientResponse) (key : String) : ClientResponse :=
  { r with headers := r.headers.filter fun h => h.1.toLower ≠ key.toLower }

/-- `filePath`, if there is one. -/
def file? (r : ClientResponse) : Option String := orNull r.filePath

/-- A file, or a body that is a string or bytes. -/
def hasContent (r : ClientResponse) : Bool := r.file?.isSome || r.body.isSome

/-- `isNoBodyStatusCode`. -/
def isBodylessStatus (r : ClientResponse) : Bool :=
  (100 ≤ r.statusCode && r.statusCode < 200) || r.statusCode = 204 || r.statusCode = 304

end ClientResponse

/-- `header("connection")?.toLowerCase()?.trim()`. -/
def ClientRequest.connectionHeader (request : ClientRequest) : Option String :=
  request.connection.map fun value => trim value.toLower

def shouldCloseConnection (request : ClientRequest) : Bool :=
  let tokens := ((request.connectionHeader.getD "").toList.splitOn ',').map fun token =>
    trim (.ofList token)
  request.httpVersion ≠ "websocket" &&
    ("close" ∈ tokens ||
      (request.httpVersion = "1.0" && request.connectionHeader ≠ some "keep-alive"))

def setConnectionHeader (request : ClientRequest) (response : ClientResponse) : ClientResponse :=
  if shouldCloseConnection request then response.setHeader "Connection" "Close"
  else if request.httpVersion = "1.0" && request.connectionHeader = some "keep-alive" then
    response.setHeader "Connection" "Keep-Alive"
  else response

/-- What `sendResponse` has waited for: nothing, the size of the file, or
    `applyResponseCompression`, with the headers it leaves. -/
inductive PreparedResponse where
  | bodyless
  | stat (size : ℕ)
  | identity (headers : List (String × List String))
  | compressed (headers : List (String × List String)) (data : List UInt8)
  | notAcceptable (headers : List (String × List String))

def PreparedResponse.fits (response : ClientResponse) : PreparedResponse → Bool
  | bodyless => response.isBodylessStatus
  | stat _ => !response.isBodylessStatus && response.file?.isSome
  | identity _ | compressed _ _ | notAcceptable _ =>
    !response.isBodylessStatus && response.file?.isNone

/-- The response with its one `Content-Length`, and the body that is emitted. -/
def PreparedResponse.frame (response : ClientResponse) : PreparedResponse → ClientResponse
  | bodyless => response
  | stat size => setLength response size
  | identity headers =>
    setLength { response with headers } (response.body.elim 0 (·.byteLength))
  | compressed headers data =>
    setLength { response with headers, body := some (.bytes data) } data.length
  | notAcceptable headers =>
    let response := { response with
      headers, statusCode := 406, statusMessage := "Not Acceptable", body := some (.text "") }
    setLength response 0
where
  setLength (response : ClientResponse) (length : ℕ) : ClientResponse :=
    (response.removeHeader "Content-Length").setHeader "Content-Length" (toString length)

/-- The status line and the headers. -/
def responseHead (request : ClientRequest) (response : ClientResponse) : String :=
  let lines := response.headers.flatMap fun h => h.2.map fun value => h.1 ++ ": " ++ value ++ "\r\n"
  "HTTP/" ++ request.httpVersion ++ " " ++ toString response.statusCode ++ " " ++
    response.statusMessage ++ "\r\n" ++ String.join lines ++ "\r\n"

/-- What `sendResponse` emits. -/
def responseEvents (date : String) (request : ClientRequest) (response : ClientResponse)
    (prepared : PreparedResponse) : List ClientEvent :=
  let framed := prepared.frame (setConnectionHeader request response)
  let framed := (framed.setHeader "Date" date).setHeader "Server" "Velocious"
  let sendBody := !response.isBodylessStatus && request.httpMethod ≠ "HEAD"
  .output (.text (responseHead request framed)) ::
    match response.file? with
    | some filePath => [.file filePath sendBody]
    | none => if sendBody then framed.body.toList.map .output else []

/-- `_sendBadRequestResponse` and `_sendBadUpgradeResponse`. -/
def badResponseEvents (httpVersion message : String) : List ClientEvent :=
  let body := message ++ "\n"
  [.output (.text ("HTTP/" ++ httpVersion ++ " 400 Bad Request\r\nConnection: Close\r\n" ++
      "Content-Type: text/plain; charset=UTF-8\r\nContent-Length: " ++
      toString body.utf8ByteSize ++ "\r\n\r\n" ++ body)),
    .close]

def switchingProtocols (httpVersion acceptKey : String) : List ClientEvent :=
  [.output (.text ("HTTP/" ++ httpVersion ++ " 101 Switching Protocols\r\nUpgrade: websocket\r\n" ++
    "Connection: Upgrade\r\nSec-WebSocket-Accept: " ++ acceptKey ++ "\r\n\r\n"))]

/-! ## The connection -/

/-- A runner, with its response once it is done. -/
structure PipelinedRunner where
  request : ClientRequest
  response : Option ClientResponse

/-- Where the drain of done requests is. -/
inductive ResponseStage where
  | idle
  | preparing (request : ClientRequest) (response : ClientResponse)
  | transferring (request : ClientRequest)
  | logging (request : ClientRequest)
  | throwing
  | returning

/-- A connection's pipeline. -/
structure PipelineWorld where
  runners : List PipelinedRunner
  shifted : ℕ
  stage : ResponseStage
  pending : Bool
  rejections : ℕ
  upgraded : Bool
  events : List ClientEvent
  sent : List PreparedResponse

/-- What happens next: a request, a malformed one or an upgrade is parsed; a runner
    is done; a wait of the drain ends, or fails. -/
inductive PipelineAction where
  | request (request : ClientRequest)
  | badRequest
  | upgrade (httpVersion : String) (key : Option String)
  | complete (i : ℕ) (response : ClientResponse)
  | prepared (prepared : PreparedResponse)
  | transferred
  | logged
  | fail
  | returned
  | rejected

namespace PipelineWorld

def init : PipelineWorld := ⟨[], 0, .idle, false, 0, false, [], []⟩

def requestRunners (w : PipelineWorld) : List PipelinedRunner := w.runners.drop w.shifted

section
variable (date : ℕ → String)

/-- The response of a shifted runner is emitted. -/
def emitResponse (w : PipelineWorld) (request : ClientRequest) (response : ClientResponse)
    (prepared : PreparedResponse) : PipelineWorld :=
  { w with
    events := w.events ++ responseEvents (date w.sent.length) request response prepared
    sent := w.sent ++ [prepared]
    stage := if response.file?.isSome then .transferring request else .logging request }

/-- `sendDoneRequests`, up to its next wait. -/
def sendDoneRequests (w : PipelineWorld) : PipelineWorld :=
  match w.requestRunners with
  | ⟨request, some response⟩ :: _ =>
    let w := { w with shifted := w.shifted + 1 }
    if !response.hasContent then { w with stage := .throwing }
    else if response.isBodylessStatus then w.emitResponse date request response .bodyless
    else { w with stage := .preparing request response }
  | _ => { w with stage := .returning }

def requestDone (w : PipelineWorld) : PipelineWorld :=
  match w.stage with
  | .idle => { w with pending := false }.sendDoneRequests date
  | _ => { w with pending := true }

/-- One step. -/
def step (accept : String → String) (w : PipelineWorld) : PipelineAction → Option PipelineWorld
  | .request request =>
    if w.upgraded then none else some { w with runners := w.runners ++ [⟨request, none⟩] }
  | .badRequest =>
    if w.upgraded then none
    else some { w with events := w.events ++ badResponseEvents "1.1" "Bad Request" }
  | .upgrade httpVersion key =>
    if w.upgraded then none
    else match orNull key with
      | none =>
        let bad := badResponseEvents httpVersion "Missing Sec-WebSocket-Key header"
        some { w with events := w.events ++ bad }
      | some key => some { w with
          upgraded := true
          events := w.events ++ switchingProtocols httpVersion (accept key) }
  | .complete i response =>
    match w.runners[i]? with
    | some ⟨request, none⟩ =>
      let runners := w.runners.set i ⟨request, some response⟩
      some ({ w with runners }.requestDone date)
    | _ => none
  | .prepared prepared =>
    match w.stage with
    | .preparing request response =>
      if prepared.fits response then some (w.emitResponse date request response prepared) else none
    | _ => none
  | .transferred =>
    match w.stage with
    | .transferring request => some { w with stage := .logging request }
    | _ => none
  | .logged =>
    match w.stage with
    | .logging request =>
      let closing := if shouldCloseConnection request then [ClientEvent.close] else []
      some ({ w with events := w.events ++ closing }.sendDoneRequests date)
    | _ => none
  | .fail =>
    match w.stage with
    | .preparing _ _ | .logging _ | .throwing =>
      some { w with stage := .idle, rejections := w.rejections + 1 }
    | _ => none
  | .returned =>
    match w.stage with
    | .returning =>
      if w.pending then some ({ w with pending := false }.sendDoneRequests date)
      else some { w with stage := .idle }
    | _ => none
  | .rejected =>
    match w.rejections with
    | 0 => none
    | n + 1 => some { w with rejections := n, events := w.events ++ [.close] }

end

/-- Nothing has ended the connection, and no request will. -/
structure Open (w : PipelineWorld) : Prop where
  upgraded : w.upgraded = false
  close : ClientEvent.close ∉ w.events
  keepAlive : ∀ runner ∈ w.runners, shouldCloseConnection runner.request = false

/-- What is received is received by an open connection, a malformed request or an
    upgrade when every response before it has been emitted; every response has
    a body or a file, and sending it does not fail. -/
def Orderly (w : PipelineWorld) : PipelineAction → Prop
  | .request _ => w.Open
  | .badRequest | .upgrade _ _ => w.Open ∧ w.sent.length = w.runners.length
  | .complete _ response => response.hasContent = true
  | .fail => False
  | .prepared _ | .transferred | .logged | .returned | .rejected => True

/-- What was emitted for the request with this number. -/
def answer (date : ℕ → String) (w : PipelineWorld) (i : ℕ) : List ClientEvent :=
  match w.runners[i]?, w.sent[i]? with
  | some ⟨request, some response⟩, some prepared =>
    responseEvents (date i) request response prepared
  | _, _ => []

/-- The responses that have been emitted, in the order of their requests. -/
def answers (date : ℕ → String) (w : PipelineWorld) : List ClientEvent :=
  (List.range w.sent.length).flatMap (w.answer date)

end PipelineWorld

end Velocious
