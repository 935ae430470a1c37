/-
  Reading one HTTP request (src/http-server/client/request-buffer).

  A `RequestBuffer` is fed chunks; it reads lines, bodies of a fixed length,
  chunked bodies and multipart forms, and says where the request ends.

  * A line is the list of its characters, one for each byte (`latin1`).
  * A body is kept as its bytes, joined, where the source keeps buffers or decodes
    them; the integers that `parseInt` reads are not rounded, which bodies of up to `2 ^ 53` bytes
    do not show.
  * `BodyDecoder` stands for `JSON.parse`, `querystring.parse` and the building of
    params from them, each of which may throw; `params` lists what is
    incorporated, the params of the parts of a form first.
  * `readHeaderFromLine` and the other patterns are written out: a dot does not
    match the end of a line.
  * A header called `__proto__` is an entry like the others here, which it is not in
    a JavaScript object.
-/
import Velocious.Foundation.Feeding
import Velocious.Foundation.ParseInt

namespace Velocious

open Foundation

/-- `data.toString("latin1")`. -/
def latin1 (data : List UInt8) : List Char := data.map fun byte => Char.ofNat byte.toNat

/-- A character of a line, in lower case. -/
def lowerChar (c : Char) : Char :=
  if ('A' ≤ c && c ≤ 'Z') || (0xC0 ≤ c.toNat && c.toNat ≤ 0xDE && c.toNat ≠ 0xD7) then
    Char.ofNat (c.toNat + 32)
  else c

/-- `s.toLowerCase()`, of text that was read as `latin1`. -/
def toLowerCase (s : String) : String := .ofList (s.toList.map lowerChar)

/-- `s.toUpperCase()`, of ASCII text. -/
def toUpperCase (s : String) : String := .ofList (s.toList.map Char.toUpper)

def includes (s t : String) : Bool := t.toList <:+: s.toList

/-- A header line. -/
structure Header where
  name : String
  value : String

def Header.formattedName (h : Header) : String := trim (toLowerCase h.name)

/-- The headers by their formatted names; a later header replaces an earlier one. -/
abbrev HeaderTable := List (String × Header)

namespace HeaderTable

def get (headers : HeaderTable) (name : String) : Option Header :=
  (headers.find? (·.1 = trim (toLowerCase name))).map (·.2)

def set (headers : HeaderTable) (h : Header) : HeaderTable :=
  if headers.any (·.1 = h.formattedName) then
    headers.map fun entry => if entry.1 = h.formattedName then (h.formattedName, h) else entry
  else headers ++ [(h.formattedName, h)]

end HeaderTable

/-! ## Patterns -/

/-- What stands before the end of the line, if that is `\\r\\n`. -/
def lineContent (line : List Char) : Option (List Char) :=
  let content := line.takeWhile fun c => c ≠ '\r' && c ≠ '\n'
  if ['\r', '\n'].isPrefixOf (line.drop content.length) then some content else none

/-- The last `: ` that has something behind it, and what stands on both sides. -/
def splitColon : List Char → Option (List Char × List Char)
  | [] => none
  | c :: cs =>
    match splitColon cs with
    | some (name, value) => some (c :: name, value)
    | none =>
      match c, cs with
      | ':', ' ' :: v :: value => some ([], v :: value)
      | _, _ => none

/-- `/^(.+): (.+)\r\n/`. -/
def matchHeader (line : List Char) : Option (List Char × List Char) :=
  ((lineContent line).bind splitColon).filter fun m => m.1 ≠ []

/-- The first ` HTTP/` that has something on both sides. -/
def splitVersion : List Char → Option (List Char × List Char)
  | [] => none
  | c :: cs =>
    if " HTTP/".toList.isPrefixOf cs && cs.drop 6 ≠ [] then some ([c], cs.drop 6)
    else (splitVersion cs).map fun m => (c :: m.1, m.2)

/-- `[A-Z-]`. -/
def isMethodChar (c : Char) : Bool := ('A' ≤ c && c ≤ 'Z') || c = '-'

/-- `/^([A-Z-]+) (.+?) HTTP\/(.+)\r\n/`: the method, the path and the version. -/
def matchStatusLine (line : List Char) : Option (List Char × List Char × List Char) :=
  (lineContent line).bind fun content =>
    let method := content.takeWhile isMethodChar
    match method, content.dropWhile isMethodChar with
    | [], _ => none
    | _, ' ' :: rest => (splitVersion rest).map fun m => (method, m.1, m.2)
    | _, _ => none

/-- `/^multipart\/form-data;\s*boundary=(.+)$/i`. -/
def matchBoundary (value : String) : Option String :=
  let kind := value.toList.take 20
  let rest := (value.toList.drop 20).dropWhile isJsSpace
  let boundary := rest.drop 9
  if toLowerCase (.ofList kind) = "multipart/form-data;" &&
      toLowerCase (.ofList (rest.take 9)) = "boundary=" && boundary ≠ [] then
    some (.ofList boundary)
  else none

/-- `"(?:;\s*filename="(.+?)")?$`. -/
def matchFilename (s : List Char) : Option (Option (List Char)) :=
  match s with
  | ['"'] => some none
  | '"' :: ';' :: rest =>
    let rest := rest.dropWhile isJsSpace
    let filename := (rest.drop 10).dropLast
    if "filename=\"".toList.isPrefixOf rest && (rest.drop 10).getLast? = some '"' && filename ≠ [] then
      some (some filename)
    else none
  | _ => none

/-- The shortest name that is followed by the end, or by a filename. -/
def splitName : List Char → Option (List Char × Option (List Char))
  | [] => none
  | c :: cs =>
    match matchFilename cs with
    | some filename => some ([c], filename)
    | none => (splitName cs).map fun m => (c :: m.1, m.2)

/-- `/^form-data;\s*name="(.+?)"(?:;\s*filename="(.+?)")?$/`. -/
def matchDisposition (value : String) : Option (String × Option String) :=
  let rest := (value.toList.drop 10).dropWhile isJsSpace
  if startsWith value "form-data;" && "name=\"".toList.isPrefixOf rest then
    (splitName (rest.drop 6)).map fun m => (.ofList m.1, m.2.map .ofList)
  else none

/-- A part of a multipart body. -/
structure FormDataPart where
  headers : HeaderTable
  body : List UInt8
  name : Option String
  filename : Option String
  contentLength : Option (Option ℤ)
  contentType : Option String

namespace FormDataPart

def empty : FormDataPart := ⟨[], [], none, none, none, none⟩

def addHeader (part : FormDataPart) (header : Header) : FormDataPart :=
  let part := { part with headers := part.headers.set header }
  if header.formattedName = "content-disposition" then
    match matchDisposition header.value with
    | some (name, filename) => { part with name := some name, filename }
    | none => part
  else if header.formattedName = "content-length" then
    { part with contentLength := some (parseInt none header.value) }
  else if header.formattedName = "content-type" then
    { part with contentType := some header.value }
  else part

/-- `removeFromBody`, given the length of the text. -/
def removeFromBody (part : FormDataPart) (length : ℕ) : FormDataPart :=
  { part with body := part.body.take (part.body.length - length) }

end FormDataPart

/-! ## Requests -/

/-- What turns a body, or a part of a form, into params. -/
structure BodyDecoder (π : Type) where
  json : List UInt8 → Option π
  query : List UInt8 → Option π
  part : FormDataPart → Option π

/-- Why a request is refused. -/
inductive RequestError where
  | message (text : String)
  | params
  deriving DecidableEq

/-- What the parser reads next. -/
inductive ParserState where
  | status
  | headers
  | multiPartFormData
  | multiPartFormDataHeader
  | multiPartFormDataBody
  | chunkedSize
  | chunkedData
  | chunkedDataCrlf
  | chunkedTrailer
  | postBody
  | done
  deriving DecidableEq

/-- A request as it is parsed. -/
structure RequestBuffer (π : Type) where
  bodyLength : ℕ
  postBodyBuffers : Option (List UInt8)
  data : List UInt8
  headersByName : HeaderTable
  contentLength : Option (Option ℤ)
  chunkedBodyChars : Option (List UInt8)
  currentChunkSize : Option ℤ
  currentChunkBytesRead : ℕ
  currentChunkCrlfRead : ℕ
  boundary : Option String
  formDataPart : Option FormDataPart
  completed : Bool
  readingBody : Bool
  state : ParserState
  httpMethod : Option String
  path : Option String
  httpVersion : Option String
  postBody : Option (List UInt8)
  params : List π

/-- `contentLength && n >= contentLength`. -/
def lengthReached (contentLength : Option (Option ℤ)) (n : ℕ) : Bool :=
  match contentLength with
  | some (some length) => length ≠ 0 && length ≤ n
  | _ => false

namespace RequestBuffer

variable {π : Type} (decoder : BodyDecoder π)

def empty : RequestBuffer π where
  bodyLength := 0
  postBodyBuffers := none
  data := []
  headersByName := []
  contentLength := none
  chunkedBodyChars := none
  currentChunkSize := none
  currentChunkBytesRead := 0
  currentChunkCrlfRead := 0
  boundary := none
  formDataPart := none
  completed := false
  readingBody := false
  state := .status
  httpMethod := none
  path := none
  httpVersion := none
  postBody := none
  params := []

/-- `getHeader(name)?.value`. -/
def header (b : RequestBuffer π) (name : String) : Option String :=
  (b.headersByName.get name).map (·.value)

def boundaryLine (boundary : String) : List Char := ("--" ++ boundary ++ "\r\n").toList
def boundaryLineNext (boundary : String) : List Char := ("\r\n--" ++ boundary ++ "\r\n").toList
def boundaryLineEnd (boundary : String) : List Char := ("\r\n--" ++ boundary ++ "--").toList

/-- `completeRequest`, and the params of the body. -/
def completeRequest (b : RequestBuffer π) : Except RequestError (RequestBuffer π) :=
  let b := { b with state := .status, completed := true }
  let isJson := startsWith ((b.header "content-type").getD "") "application/json"
  -- the params of a form were taken part by part
  if !isJson && b.boundary.isSome then .ok b
  else
    match b.postBody.getD [] with
    | [] => .ok b
    | body =>
      match if isJson then decoder.json body else decoder.query body with
      | some params => .ok { b with params := b.params ++ [params] }
      | none => .error .params

def newFormDataPart (b : RequestBuffer π) : RequestBuffer π :=
  { b with formDataPart := some .empty, state := .multiPartFormDataHeader }

def formDataPartDone (b : RequestBuffer π) (part : FormDataPart) :
    Except RequestError (RequestBuffer π) :=
  if orNull part.name = none then .error (.message "Name hasn't been set")
  else
    match decoder.part part with
    | some params => .ok { b with formDataPart := none, params := b.params ++ [params] }
    | none => .error .params

def addHeader (b : RequestBuffer π) (header : Header) : RequestBuffer π :=
  { b with
    headersByName := b.headersByName.set header
    contentLength :=
      if header.formattedName = "content-length" then some (parseInt none header.value)
      else b.contentLength }

def readHeaderFromLine (line : List Char) : Option Header :=
  (matchHeader line).map fun m => ⟨.ofList m.1, .ofList m.2⟩

def parseStatusLine (b : RequestBuffer π) (line : List Char) :
    Except RequestError (RequestBuffer π) :=
  match matchStatusLine line with
  | none => .error (.message ("Couldn't match status line from: " ++ .ofList line))
  | some (method, path, version) =>
    .ok { b with
      httpMethod := some (.ofList method), httpVersion := some (.ofList version)
      path := some (.ofList path), state := .headers }

def expectsRequestBody (httpMethod : String) : Bool := httpMethod ∉ ["GET", "OPTIONS", "HEAD"]

/-- `includes("chunked")`, of a value in lower case. -/
def isChunkedEncoding (b : RequestBuffer π) : Bool :=
  match b.header "transfer-encoding" with
  | some value => includes (toLowerCase value) "chunked"
  | none => false

def initializeChunkedBody (b : RequestBuffer π) : RequestBuffer π :=
  { b with
    chunkedBodyChars := some [], currentChunkSize := none, currentChunkBytesRead := 0
    state := .chunkedSize }

/-- The empty line behind the headers. -/
def endHeaders (b : RequestBuffer π) : Except RequestError (RequestBuffer π) :=
  match orNull (b.httpMethod.map toUpperCase) with
  | none => .error (.message "HTTP method not set")
  | some httpMethod =>
    if !expectsRequestBody httpMethod then b.completeRequest decoder
    else
      let b := { b with readingBody := true, bodyLength := 0 }
      if b.isChunkedEncoding then .ok b.initializeChunkedBody
      else
        match (b.header "content-type").bind matchBoundary with
        | some boundary => .ok { b with boundary := some boundary, state := .multiPartFormData }
        | none =>
          match b.contentLength with
          | none | some (some 0) => b.completeRequest decoder
          | some none => .error (.message "Content length is invalid")
          | some (some _) => .ok { b with postBodyBuffers := some [], state := .postBody }

def parseHeader (b : RequestBuffer π) (line : List Char) :
    Except RequestError (RequestBuffer π) :=
  match readHeaderFromLine line with
  | some header => .ok (b.addHeader header)
  | none => if line = ['\r', '\n'] then b.endHeaders decoder else .ok b

/-- The size that a chunk size line holds: what stands before a semicolon. -/
def chunkSizeToken (trimmed : String) : String :=
  trim (.ofList (trimmed.toList.takeWhile (· ≠ ';')))

def parseChunkSizeLine (b : RequestBuffer π) (line : List Char) :
    Except RequestError (RequestBuffer π) :=
  let trimmed := trim (.ofList line)
  let sizeToken := chunkSizeToken trimmed
  if trimmed = "" then .ok b
  else if sizeToken = "" then .error (.message ("Invalid chunk size line: " ++ .ofList line))
  else
    match (parseInt (some 16) sizeToken).filter isFiniteInteger with
    | none => .error (.message ("Invalid chunk size: " ++ sizeToken))
    | some 0 => .ok { b with state := .chunkedTrailer }
    | some size =>
      .ok { b with
        currentChunkSize := some size, currentChunkBytesRead := 0, state := .chunkedData }

def finishChunkedBody (b : RequestBuffer π) : RequestBuffer π :=
  { b with
    postBody := if b.chunkedBodyChars.isSome then b.chunkedBodyChars else b.postBody
    chunkedBodyChars := none }

def parse (b : RequestBuffer π) (line : List Char) : Except RequestError (RequestBuffer π) :=
  match b.state with
  | .status => b.parseStatusLine line
  | .headers => b.parseHeader decoder line
  | .chunkedSize => b.parseChunkSizeLine line
  | .chunkedTrailer =>
    if line = ['\r', '\n'] then b.finishChunkedBody.completeRequest decoder else .ok b
  | .multiPartFormData =>
    if b.boundary.map boundaryLine = some line then .ok b.newFormDataPart
    else if line = ['\r', '\n'] then .ok { b with state := .done }
    else
      .error (.message ("Expected boundary line but didn't get it: " ++ .ofList line))
  | .multiPartFormDataHeader =>
    match readHeaderFromLine line with
    | some header =>
      match b.formDataPart with
      | some part => .ok { b with formDataPart := some (part.addHeader header) }
      | none => .error (.message "formDataPart not set")
    | none =>
      if line = ['\r', '\n'] then .ok { b with state := .multiPartFormDataBody } else .ok b
  | _ => .error (.message "Unknown state parsing line")

/-- `feedLine`, and what it leaves. -/
def feedLine (b : RequestBuffer π) (data : List UInt8) :
    Except RequestError (RequestBuffer π × List UInt8) :=
  let line := data.takeWhile (· ≠ 10)
  match data.dropWhile (· ≠ 10) with
  | [] =>
    .ok ({ b with
      bodyLength := b.bodyLength + if b.readingBody then data.length else 0
      data := b.data ++ data }, [])
  | newline :: rest =>
    let b' := { b with
      bodyLength := b.bodyLength + if b.readingBody then line.length + 1 else 0
      data := [] }
    (b'.parse decoder (latin1 (b.data ++ line ++ [newline]))).map fun b => (b, rest)

def postRequestDone (b : RequestBuffer π) : Except RequestError (RequestBuffer π) :=
  completeRequest decoder
    { b with
      postBody := if b.postBodyBuffers.isSome then b.postBodyBuffers else b.postBody
      postBodyBuffers := none }

/-- `feedPostBody`, and what it leaves. -/
def feedPostBody (b : RequestBuffer π) (data : List UInt8) :
    Except RequestError (RequestBuffer π × List UInt8) :=
  match b.postBodyBuffers, b.contentLength with
  | some buffers, some (some contentLength) =>
    let remainingBodyBytes := (max 1 (contentLength - b.bodyLength)).toNat
    let body := data.take remainingBodyBytes
    let b := { b with
      postBodyBuffers := some (buffers ++ body), bodyLength := b.bodyLength + body.length }
    let rest := data.drop remainingBodyBytes
    if lengthReached b.contentLength b.bodyLength then
      (b.postRequestDone decoder).map fun b => (b, rest)
    else .ok (b, rest)
  | none, _ => .error (.message "postBodyBuffers not initialized")
  | _, _ => .error (.message "Content length not set")

/-- A byte of the content of a part. -/
def feedPart (b : RequestBuffer π) (char : UInt8) : Except RequestError (RequestBuffer π) :=
  match b.formDataPart, b.boundary with
  | none, _ => .error (.message "FormData part not initialized")
  | _, none => .error (.message "Boundary line end not initialized")
  | some part, some boundary =>
    let part := { part with body := part.body ++ [char] }
    let possibleBoundary (boundaryLine : List Char) : Bool :=
      latin1 (part.body.drop (part.body.length - boundaryLine.length)) = boundaryLine
    if possibleBoundary (boundaryLineEnd boundary) then
      (b.formDataPartDone decoder (part.removeFromBody (boundaryLineEnd boundary).length)).bind
        fun b => b.completeRequest decoder
    else if possibleBoundary (boundaryLineNext boundary) then
      (b.formDataPartDone decoder (part.removeFromBody (boundaryLineNext boundary).length)).map
        fun b => b.newFormDataPart
    else if lengthReached b.contentLength b.bodyLength then
      (b.formDataPartDone decoder part).bind fun b => b.completeRequest decoder
    else if lengthReached part.contentLength b.bodyLength then
      (b.formDataPartDone decoder part).bind fun _ => .error (.message "stub")
    else .ok { b with formDataPart := some part }

def feedByte (b : RequestBuffer π) (char : UInt8) : Except RequestError (RequestBuffer π) :=
  let b := { b with bodyLength := b.bodyLength + if b.readingBody then 1 else 0 }
  match b.state with
  | .chunkedData =>
    match b.currentChunkSize, b.chunkedBodyChars with
    | none, _ => .error (.message "Chunk size not initialized")
    | _, none => .error (.message "Chunked body not initialized")
    | some size, some chars =>
      let b := { b with
        chunkedBodyChars := some (chars ++ [char])
        currentChunkBytesRead := b.currentChunkBytesRead + 1 }
      if size ≤ b.currentChunkBytesRead then
        .ok { b with currentChunkCrlfRead := 0, state := .chunkedDataCrlf }
      else .ok b
  | .chunkedDataCrlf =>
    let b := { b with currentChunkCrlfRead := b.currentChunkCrlfRead + 1 }
    if 2 ≤ b.currentChunkCrlfRead then
      .ok { b with currentChunkBytesRead := 0, state := .chunkedSize }
    else .ok b
  | .multiPartFormDataBody => b.feedPart decoder char
  | _ => .ok b

/-- One turn of the loop of `feed`, and what it leaves. -/
def feedOnce (b : RequestBuffer π) (data : List UInt8) :
    Except RequestError (RequestBuffer π × List UInt8) :=
  match b.state with
  | .status | .headers | .multiPartFormData | .multiPartFormDataHeader | .chunkedSize
  | .chunkedTrailer => b.feedLine decoder data
  | .postBody => b.feedPostBody decoder data
  | .chunkedData | .chunkedDataCrlf | .multiPartFormDataBody | .done =>
    match data with
    | [] => .ok (b, [])
    | char :: rest => (b.feedByte decoder char).map fun b => (b, rest)

/-- `feed`: what remains, once the request is complete. -/
def feed (b : RequestBuffer π) (data : List UInt8) :
    Except RequestError (RequestBuffer π × Option (List UInt8)) :=
  Reader.feed (feedOnce decoder) completed b data

end RequestBuffer

end Velocious
