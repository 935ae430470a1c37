/-
  What the request buffer reads from the bytes of a request.

  `feed_head`: the lines of a head are read one by one, and the empty line behind
  them decides about the body. `feed_request`: a request that is `Plain` is read as
  it was sent, and what stands behind it remains.
-/
import Velocious.HttpServer.RequestPatterns

namespace Velocious

open Foundation RequestBuffer List

attribute [local instance (high)] List.decidableBAll

/-- What remains of the loop of `feed` after this result of a turn. -/
def RequestBuffer.goOn {π : Type} (decoder : BodyDecoder π) (rest : List UInt8)
    (next : Except RequestError (RequestBuffer π)) :
    Except RequestError (RequestBuffer π × Option (List UInt8)) :=
  next.bind fun b => if b.completed then .ok (b, some rest) else b.feed decoder rest

variable {π : Type} {decoder : BodyDecoder π} {b : RequestBuffer π} {r : SentRequest}

/-! ## Turns -/

theorem goOn_ok (rest : List UInt8) (hcompleted : b.completed = false) :
    goOn decoder rest (.ok b) = b.feed decoder rest :=
  if_neg (by rw [hcompleted]; exact Bool.false_ne_true)

theorem feed_of_turn {data rest : List UInt8} {next : Except RequestError (RequestBuffer π)}
    (hne : data ≠ []) (hturn : b.feedOnce decoder data = next.map fun b => (b, rest)) :
    b.feed decoder data = goOn decoder rest next := by
  rw [RequestBuffer.feed, Reader.feed_of_ne_nil (feedOnce_lawful decoder) hne, hturn]
  cases next <;> rfl

def ParserState.readsLine (state : ParserState) : Prop :=
  state ∈ [ParserState.status, .headers, .multiPartFormData, .multiPartFormDataHeader,
    .chunkedSize, .chunkedTrailer]

instance : DecidablePred ParserState.readsLine := fun _ => inferInstanceAs (Decidable (_ ∈ _))

theorem feedOnce_readsLine (hstate : b.state.readsLine) (data : List UInt8) :
    b.feedOnce decoder data = b.feedLine decoder data := by
  unfold ParserState.readsLine at hstate
  simp only [mem_cons, not_mem_nil, or_false] at hstate
  rcases hstate with h | h | h | h | h | h <;> simp only [feedOnce, h]

variable (decoder) in
theorem feed_line (hstate : b.state.readsLine) (hdata : b.data = []) {content : List Char}
    (hcontent : ∀ c ∈ content, c.toNat < 256 ∧ c ≠ '\n') (rest : List UInt8) :
    b.feed decoder (latin1Bytes (content ++ ['\n']) ++ rest) =
      goOn decoder rest (parse decoder
        { b with
          bodyLength := b.bodyLength + if b.readingBody then content.length + 1 else 0
          data := [] } (content ++ ['\n'])) := by
  have hbytes : latin1Bytes (content ++ ['\n']) = latin1Bytes content ++ [10] :=
    latin1Bytes_append content ['\n']
  have hlatin : latin1 (latin1Bytes content ++ [10]) = content ++ ['\n'] := by
    rw [← hbytes]
    refine latin1_latin1Bytes fun c hc => ?_
    rcases mem_append.mp hc with h | h
    · exact (hcontent c h).1
    · obtain rfl := mem_singleton.mp h
      decide
  have hlength : (latin1Bytes content).length = content.length := length_map _
  rw [hbytes, append_assoc, singleton_append]
  apply feed_of_turn (by simp)
  rw [feedOnce_readsLine hstate, feedLine_line (newline_notMem hcontent), hdata, hlength,
    nil_append, hlatin]

variable (decoder) in
theorem feed_headLine (hstate : b.state.readsLine) (hdata : b.data = [])
    (hreading : b.readingBody = false) {content : List Char} (hcontent : IsLine content)
    (rest : List UInt8) :
    b.feed decoder (latin1Bytes (content ++ ['\r', '\n']) ++ rest) =
      goOn decoder rest (b.parse decoder (content ++ ['\r', '\n'])) := by
  have hline : ∀ c ∈ content ++ ['\r'], c.toNat < 256 ∧ c ≠ '\n' := by
    intro c hc
    rcases mem_append.mp hc with h | h
    · exact ⟨(hcontent c h).1, (hcontent c h).2.2⟩
    · obtain rfl := mem_singleton.mp h
      decide
  have hfeed := feed_line decoder hstate hdata hline rest
  have hsame : { b with
      bodyLength := b.bodyLength + if b.readingBody then (content ++ ['\r']).length + 1 else 0
      data := [] } = b := by
    cases b
    dsimp only at hdata hreading
    subst hdata hreading
    rfl
  rwa [hsame, append_assoc] at hfeed

/-! ## The head -/

theorem get_set (headers : HeaderTable) (h : Header) (name : String) :
    (headers.set h).get name =
      if h.formattedName = trim (toLowerCase name) then some h else headers.get name := by
  generalize hkey : trim (toLowerCase name) = key
  unfold HeaderTable.set HeaderTable.get
  rw [hkey]
  split
  case isTrue hany =>
    have hfst : ∀ entry : String × Header,
        (if entry.1 = h.formattedName then (h.formattedName, h) else entry).1 = entry.1 := by
      intro entry
      split
      · exact Eq.symm ‹_›
      · rfl
    rw [find?_map]
    simp only [Function.comp_def, hfst]
    cases hfind : headers.find? (·.1 = key) with
    | none =>
      have hnone := find?_eq_none.mp hfind
      obtain ⟨entry, hentry, hname⟩ := any_eq_true.mp hany
      rw [if_neg]
      · rfl
      · rintro rfl
        exact hnone entry hentry hname
    | some entry =>
      have hentry : entry.1 = key := of_decide_eq_true (find?_some hfind :)
      simp only [Option.map_some, hentry, eq_comm (a := key)]
      split <;> rfl
  case isFalse hany =>
    have hnone : ¬ ∃ entry ∈ headers, entry.1 = h.formattedName := by
      rintro ⟨entry, hentry, hname⟩
      exact hany (any_eq_true.mpr ⟨entry, hentry, decide_eq_true hname⟩)
    rw [find?_append]
    split
    case isTrue hname =>
      have hfind : headers.find? (·.1 = key) = none :=
        find?_eq_none.mpr fun entry hentry h' =>
          hnone ⟨entry, hentry, (of_decide_eq_true h').trans hname.symm⟩
      rw [hfind]
      simp [hname]
    case isFalse hname => simp [hname]

/-- The headers of these lines, as the pattern reads them. -/
def readHeaders (headers : List SentHeader) : List Header :=
  headers.filterMap fun h => readHeaderFromLine h.line

namespace SentRequest

/-- The headers by their formatted names, as they are read. -/
def readTable (r : SentRequest) : HeaderTable := (readHeaders r.headers).foldl HeaderTable.set []

def readHeader (r : SentRequest) (name : String) : Option String :=
  (r.readTable.get name).map (·.value)

def head (r : SentRequest) : RequestBuffer π :=
  { RequestBuffer.empty with
    httpMethod := some r.method, path := some r.path, httpVersion := some r.version
    state := .headers, headersByName := r.readTable
    contentLength := (r.readHeader "content-length").map (parseInt none) }

end SentRequest

theorem addHeaders_eq (headers : List Header)
    (hb : b.contentLength = (b.header "content-length").map (parseInt none)) :
    headers.foldl addHeader b =
      { b with
        headersByName := headers.foldl HeaderTable.set b.headersByName
        contentLength :=
          ((headers.foldl HeaderTable.set b.headersByName).get "content-length").map
            fun h => parseInt none h.value } := by
  induction headers generalizing b with
  | nil =>
    rw [header, Option.map_map] at hb
    cases b
    dsimp only at hb
    subst hb
    rfl
  | cons h headers ih =>
    rw [foldl_cons, ih]
    · rfl
    · have hkey : trim (toLowerCase "content-length") = "content-length" := by decide
      rw [header]
      simp only [addHeader, get_set, hkey]
      split
      · rfl
      · exact hb

variable {h : SentHeader}

theorem SentHeader.line_ne (hh : h.WellFormed) : h.line ≠ ['\r', '\n'] := by
  intro hline
  obtain ⟨c, name, hname⟩ : ∃ c name, h.name.toList = c :: name :=
    exists_cons_of_ne_nil fun h' => hh.name.1 (String.toList_eq_nil_iff.mp h')
  have hc := hh.name.2 c (by simp [hname])
  unfold SentHeader.line at hline
  rw [hname] at hline
  obtain rfl := (List.cons.inj hline).1
  exact absurd hc (by decide)

variable {s : String}

theorem IsLine.blank (hs : IsBlank s) : IsLine s.toList :=
  isLine_of_field fun c hc => isFieldChar_of_blank (hs c hc)

theorem IsLine.visible (hs : ∀ c ∈ s.toList, isVisible c = true) : IsLine s.toList :=
  isLine_of_field fun c hc => isFieldChar_of_visible (hs c hc)

theorem IsLine.token (hs : IsToken s) : IsLine s.toList :=
  .visible fun c hc => isVisible_of_token (hs.2 c hc)

theorem SentHeader.WellFormed.isLine (hh : h.WellFormed) :
    IsLine (h.name.toList ++ ':' :: (h.before.toList ++ h.value.toList ++ h.after.toList)) :=
  (IsLine.token hh.name).append (.cons (by decide)
    (((IsLine.blank hh.before).append (isLine_of_field hh.value)).append (.blank hh.after)))

theorem feed_header (hh : h.WellFormed) (hstate : b.state = .headers)
    (hdata : b.data = []) (hreading : b.readingBody = false) (hcompleted : b.completed = false)
    (rest : List UInt8) :
    b.feed decoder (h.encode ++ rest) =
      ((readHeaders [h]).foldl addHeader b).feed decoder rest := by
  have hreads : b.state.readsLine := by
    rw [hstate]
    decide
  have hparse : b.parse decoder h.line = .ok ((readHeaders [h]).foldl addHeader b) := by
    simp only [parse, hstate, parseHeader]
    cases hread : readHeaderFromLine h.line with
    | some header => simp [readHeaders, hread]
    | none => simp [readHeaders, hread, SentHeader.line_ne hh]
  have hdone : ((readHeaders [h]).foldl addHeader b).completed = false := by
    cases hread : readHeaderFromLine h.line <;> simp [readHeaders, hread, addHeader, hcompleted]
  have hfeed := feed_headLine decoder hreads hdata hreading hh.isLine rest
  rw [SentHeader.encode, SentHeader.line, hfeed, ← SentHeader.line, hparse, goOn_ok rest hdone]

theorem addHeaders_fields (headers : List Header) :
    (headers.foldl addHeader b).state = b.state ∧ (headers.foldl addHeader b).data = b.data ∧
      (headers.foldl addHeader b).readingBody = b.readingBody ∧
      (headers.foldl addHeader b).completed = b.completed := by
  induction headers generalizing b with
  | nil => exact ⟨rfl, rfl, rfl, rfl⟩
  | cons h headers ih => exact ih

theorem feed_headers {headers : List SentHeader} (hheaders : ∀ h ∈ headers, h.WellFormed)
    (hstate : b.state = .headers) (hdata : b.data = []) (hreading : b.readingBody = false)
    (hcompleted : b.completed = false) (rest : List UInt8) :
    b.feed decoder (headers.flatMap SentHeader.encode ++ rest) =
      ((readHeaders headers).foldl addHeader b).feed decoder rest := by
  induction headers generalizing b with
  | nil => rfl
  | cons h headers ih =>
    obtain ⟨hs, hd, hr, hc⟩ := addHeaders_fields (b := b) (readHeaders [h])
    have hsplit : readHeaders (h :: headers) = readHeaders [h] ++ readHeaders headers :=
      filterMap_append (l := [h])
    rw [flatMap_cons, append_assoc,
      feed_header (hheaders h mem_cons_self) hstate hdata hreading hcompleted,
      ih (fun h' hh' => hheaders h' (mem_cons_of_mem h hh')) (hs.trans hstate)
        (hd.trans hdata) (hr.trans hreading) (hc.trans hcompleted),
      hsplit, foldl_append]

/-- **The lines of a head are read, and the empty line decides about the body.** -/
theorem feed_head (hr : r.HeadWellFormed) (hmethod : ∀ c ∈ r.method.toList, isMethodChar c = true)
    (rest : List UInt8) :
    RequestBuffer.empty.feed decoder (r.encodeHead ++ rest) =
      goOn decoder rest (r.head.endHeaders decoder) := by
  obtain ⟨htoken, hpath, hversion, hheaders⟩ := hr
  have hspace : ∀ c ∈ r.path.toList, c ≠ ' ' := by
    rintro c hc rfl
    exact absurd (hpath.2 _ hc) (by decide)
  have hne : ∀ {s : String}, s ≠ "" → s.toList ≠ [] := fun h h' => h (String.toList_eq_nil_iff.mp h')
  have hmatch := matchStatusLine_line hmethod (hne htoken.1) (.token htoken)
    (.visible hpath.2) hspace (hne hpath.1) (.visible hversion.2) (hne hversion.1)
  have hstatus : IsLine (r.method.toList ++ ' ' :: r.path.toList ++ " HTTP/".toList ++
      r.version.toList) :=
    (((IsLine.token htoken).append (.cons (by decide) (.visible hpath.2))).append
      (by unfold IsLine; decide)).append (.visible hversion.2)
  let started : RequestBuffer π :=
    { RequestBuffer.empty with
      httpMethod := some r.method, path := some r.path, httpVersion := some r.version
      state := .headers }
  have hparse : RequestBuffer.empty.parse decoder r.statusLine = .ok started := by
    unfold SentRequest.statusLine
    simp only [parse, parseStatusLine, hmatch, String.ofList_toList]
    rfl
  have hreads : (RequestBuffer.empty : RequestBuffer π).state.readsLine :=
    (by decide : ParserState.status.readsLine)
  have hhead : (readHeaders r.headers).foldl addHeader started = r.head := by
    rw [addHeaders_eq _ rfl]
    simp only [SentRequest.head, SentRequest.readHeader, Option.map_map]
    rfl
  have hempty : ∀ rest, r.head.feed decoder (latin1Bytes ['\r', '\n'] ++ rest) =
      goOn decoder rest (r.head.endHeaders decoder) := by
    intro rest
    have hline : IsLine [] := fun c hc => absurd hc not_mem_nil
    have hreads : (r.head : RequestBuffer π).state.readsLine :=
      (by decide : ParserState.headers.readsLine)
    exact feed_headLine decoder hreads rfl rfl hline rest
  have hfirst := feed_headLine decoder hreads rfl rfl hstatus
    (r.headers.flatMap SentHeader.encode ++ (latin1Bytes ['\r', '\n'] ++ rest))
  rw [SentRequest.encodeHead, append_assoc, append_assoc, SentRequest.statusLine, hfirst,
    ← SentRequest.statusLine, hparse, goOn_ok _ rfl, feed_headers hheaders rfl rfl rfl rfl, hhead,
    hempty]

end Velocious
