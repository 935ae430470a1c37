/-
  Requests as a client sends them, and their bytes.

  `WellFormed` is the grammar of HTTP/1.1 messages: tokens, fields with optional
  white space around their values, and a body that is announced by its length, sent
  in chunks, or a form that is closed by its final boundary. Nothing here looks at
  how the server reads them, except `Plain`.

  `Plain` says which requests are read as they were sent: the pattern for a header
  line wants one space behind the colon and no other `: `, a name is kept once, a
  body is only looked for behind other methods than `GET`, `OPTIONS` and `HEAD`, and
  a form is over before the line break behind its final boundary.
-/
import Velocious.HttpServer.RequestClient

namespace Velocious

open Foundation

/-! ## Characters -/

def latin1Bytes (s : List Char) : List UInt8 := s.map fun c => UInt8.ofNat c.toNat

def isVisible (c : Char) : Bool := 0x21 ≤ c.toNat && c.toNat ≤ 0x7E

def isTokenChar (c : Char) : Bool :=
  isVisible c && c ∉ "\"(),/:;<=>?@[\\]\x7b\x7d".toList

def isBlank (c : Char) : Bool := c = ' ' || c = '\t'

def isFieldChar (c : Char) : Bool :=
  c = '\t' || (0x20 ≤ c.toNat && c.toNat ≤ 0xFF && c.toNat ≠ 0x7F)

def IsToken (s : String) : Prop := s ≠ "" ∧ ∀ c ∈ s.toList, isTokenChar c = true

def IsVisible (s : String) : Prop := s ≠ "" ∧ ∀ c ∈ s.toList, isVisible c = true

def IsBlank (s : String) : Prop := ∀ c ∈ s.toList, isBlank c = true

/-- The digits of this number. -/
structure IsNumber (radix : ℕ) (s : String) (n : ℕ) : Prop where
  nonempty : s ≠ ""
  digits : ∀ c ∈ s.toList, isDigit radix c = true
  value : digitsValue radix s.toList = n

/-- A header as sent. -/
structure SentHeader where
  name : String
  before : String
  value : String
  after : String

namespace SentHeader

/-- A header by the grammar. -/
structure WellFormed (h : SentHeader) : Prop where
  name : IsToken h.name
  before : IsBlank h.before
  value : ∀ c ∈ h.value.toList, isFieldChar c = true
  first : ∀ c ∈ h.value.toList.head?, isBlank c = false
  last : ∀ c ∈ h.value.toList.getLast?, isBlank c = false
  after : IsBlank h.after

def line (h : SentHeader) : List Char :=
  h.name.toList ++ ':' :: (h.before.toList ++ h.value.toList ++ h.after.toList) ++ ['\r', '\n']

def encode (h : SentHeader) : List UInt8 := latin1Bytes h.line

def header (h : SentHeader) : Header := ⟨h.name, h.value⟩

/-- One space behind the colon, and no other `: `. -/
structure Plain (h : SentHeader) : Prop where
  before : h.before = " "
  after : h.after = ""
  nonempty : h.value ≠ ""
  colon : ¬ [':', ' '] <:+: h.value.toList
  proto : h.header.formattedName ≠ "__proto__"

end SentHeader

/-! ## Bodies -/

/-- The largest length of a body or of a chunk. -/
def maxBodyLength : ℕ := 2 ^ 53 - 1

/-- A chunk as sent. -/
structure SentChunk where
  size : String
  extension : String
  data : List UInt8

namespace SentChunk

structure WellFormed (c : SentChunk) : Prop where
  size : IsNumber 16 c.size c.data.length
  extension : ∀ x ∈ c.extension.toList, isFieldChar x = true
  semicolon : c.extension = "" ∨ (c.extension.toList.dropWhile isBlank).head? = some ';'
  limit : c.data.length ≤ maxBodyLength

def sizeLine (c : SentChunk) : List Char := c.size.toList ++ c.extension.toList ++ ['\r', '\n']

def encode (c : SentChunk) : List UInt8 :=
  latin1Bytes c.sizeLine ++ c.data ++ latin1Bytes ['\r', '\n']

end SentChunk

/-- A part as sent. -/
structure SentPart where
  headers : List SentHeader
  data : List UInt8

/-- How a body is framed. -/
inductive SentBody where
  | none
  | sized (data : List UInt8)
  | chunked (chunks : List SentChunk) (last : SentChunk) (trailer : List SentHeader)
  | multipart (boundary : String) (parts : List SentPart)

namespace SentBody

def encodePart (boundary : String) (part : SentPart) : List UInt8 :=
  latin1Bytes ("--" ++ boundary ++ "\r\n").toList ++ part.headers.flatMap SentHeader.encode ++
    latin1Bytes ['\r', '\n'] ++ part.data ++ latin1Bytes ['\r', '\n']

def encode : SentBody → List UInt8
  | none => []
  | sized data => data
  | chunked chunks last trailer =>
    chunks.flatMap SentChunk.encode ++ latin1Bytes last.sizeLine ++
      trailer.flatMap SentHeader.encode ++ latin1Bytes ['\r', '\n']
  | multipart boundary parts =>
    parts.flatMap (encodePart boundary) ++ latin1Bytes ("--" ++ boundary ++ "--\r\n").toList

/-- The content, if there is any, of a body that is not a form. -/
def content : SentBody → Option (List UInt8)
  | none | multipart _ _ => .none
  | sized data => if data = [] then .none else some data
  | chunked chunks _ _ => some (chunks.flatMap (·.data))

end SentBody

/-! ## Requests -/

/-- A request as sent. -/
structure SentRequest where
  method : String
  path : String
  version : String
  headers : List SentHeader
  body : SentBody

namespace SentRequest

def statusLine (r : SentRequest) : List Char :=
  r.method.toList ++ ' ' :: r.path.toList ++ " HTTP/".toList ++ r.version.toList ++ ['\r', '\n']

def encodeHead (r : SentRequest) : List UInt8 :=
  latin1Bytes r.statusLine ++ r.headers.flatMap SentHeader.encode ++ latin1Bytes ['\r', '\n']

def encode (r : SentRequest) : List UInt8 := r.encodeHead ++ r.body.encode

def headersByName (r : SentRequest) : HeaderTable :=
  r.headers.map fun h => (h.header.formattedName, h.header)

def header (r : SentRequest) (name : String) : Option String :=
  (r.headersByName.get name).map (·.value)

/-- A request line and headers by the grammar. -/
structure HeadWellFormed (r : SentRequest) : Prop where
  method : IsToken r.method
  path : IsVisible r.path
  version : IsVisible r.version
  headers : ∀ h ∈ r.headers, h.WellFormed

/-- The body is the one that the headers announce. -/
def BodyWellFormed (r : SentRequest) : Prop :=
  match r.body with
  | .none =>
    r.header "transfer-encoding" = none ∧
      ∀ length ∈ r.header "content-length", IsNumber 10 length 0
  | .sized data =>
    r.header "transfer-encoding" = none ∧
      data.length ≤ maxBodyLength ∧
      ∃ length, r.header "content-length" = some length ∧ IsNumber 10 length data.length
  | .chunked chunks last trailer =>
    (∃ encoding, r.header "transfer-encoding" = some encoding ∧
      includes (toLowerCase encoding) "chunked" = true) ∧
    (∀ c ∈ chunks, c.WellFormed ∧ c.data ≠ []) ∧ last.WellFormed ∧ last.data = [] ∧
    ∀ h ∈ trailer, h.WellFormed
  | .multipart boundary parts =>
    r.header "transfer-encoding" = none ∧ IsToken boundary ∧
    r.header "content-type" = some ("multipart/form-data; boundary=" ++ boundary) ∧
    (∃ length, r.header "content-length" = some length ∧
      IsNumber 10 length r.body.encode.length) ∧
    parts ≠ [] ∧ ∀ part ∈ parts, (∀ h ∈ part.headers, h.WellFormed) ∧
      (∃ h ∈ part.headers, h.header.formattedName = "content-disposition" ∧
        ∃ name, IsToken name ∧ h.value = "form-data; name=\"" ++ name ++ "\"") ∧
      ¬ latin1Bytes ("\r\n--" ++ boundary).toList <:+: [13, 10] ++ part.data

structure WellFormed (r : SentRequest) : Prop extends r.HeadWellFormed where
  body : r.BodyWellFormed

variable {π : Type} (decoder : BodyDecoder π)

/-- The params of a body that is not a form, if they can be decoded. -/
def params (r : SentRequest) : Option (List π) :=
  match r.body.content.getD [] with
  | [] => some []
  | content =>
    (if startsWith ((r.header "content-type").getD "") "application/json" then decoder.json content
      else decoder.query content).map fun params => [params]

/-- What a handler is to see of a request whose body is not a form. -/
def request (r : SentRequest) : ExecutedRequest π where
  httpMethod := some r.method
  path := some r.path
  httpVersion := some r.version
  headers := r.headersByName
  postBody := r.body.content
  params := (r.params decoder).getD []

def IsUpgrade (r : SentRequest) : Prop :=
  ∃ upgrade connection, r.header "upgrade" = some upgrade ∧ toLowerCase upgrade = "websocket" ∧
    r.header "connection" = some connection ∧ includes (toLowerCase connection) "upgrade" = true

structure Plain (r : SentRequest) : Prop where
  method : ∀ c ∈ r.method.toList, isMethodChar c = true
  headers : ∀ h ∈ r.headers, h.Plain
  /-- no name is used twice -/
  distinct : (r.headers.map fun h => h.header.formattedName).Nodup
  expected : RequestBuffer.expectsRequestBody r.method = false → r.body.encode = []
  form : ∀ boundary parts, r.body ≠ .multipart boundary parts
  contentType : RequestBuffer.expectsRequestBody r.method = true →
    (∀ chunks last trailer, r.body ≠ .chunked chunks last trailer) →
    (r.header "content-type").bind matchBoundary = none
  decoded : (r.params decoder).isSome = true
  upgrade : ¬ r.IsUpgrade

end SentRequest

end Velocious
