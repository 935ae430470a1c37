/-
  The bodies of requests that are read as they were sent.

  `Carries`: the buffer has read the head of this request, and nothing else. From
  there a body of a fixed length is taken at once, and a chunked one line by line
  and byte by byte (`Chunking`).
-/
import Velocious.HttpServer.RequestDecoding

namespace Velocious

open Foundation RequestBuffer List

variable {π : Type} {decoder : BodyDecoder π} {b : RequestBuffer π} {r : SentRequest}

theorem foldl_set (headers : List Header) (table : HeaderTable)
    (h : (table.map (·.1) ++ headers.map Header.formattedName).Nodup) :
    headers.foldl HeaderTable.set table =
      table ++ headers.map fun header => (header.formattedName, header) := by
  induction headers generalizing table with
  | nil => simp
  | cons header headers ih =>
    have hnew : table.any (·.1 = header.formattedName) = false := by
      rw [any_eq_false]
      intro entry hentry hname
      have hmem := mem_map_of_mem (f := (·.1)) hentry
      rw [of_decide_eq_true hname] at hmem
      exact (nodup_append.mp h).2.2 _ hmem _ mem_cons_self rfl
    have hset : table.set header = table ++ [(header.formattedName, header)] :=
      if_neg (by rw [hnew]; exact Bool.false_ne_true)
    rw [foldl_cons, hset, ih]
    · simp
    · simpa using h

theorem readHeaderFromLine_plain {h : SentHeader} (hh : h.WellFormed) (hp : h.Plain) :
    readHeaderFromLine h.line = some h.header := by
  have hne : ∀ {s : String}, s ≠ "" → s.toList ≠ [] := fun h h' => h (String.toList_eq_nil_iff.mp h')
  have hmatch := matchHeader_line (.token hh.name) (hne hh.name.1) (isLine_of_field hh.value)
    (hne hp.nonempty) hp.colon
  have hline : h.line = h.name.toList ++ ':' :: ' ' :: h.value.toList ++ ['\r', '\n'] := by
    rw [SentHeader.line, hp.before, hp.after]
    simp
  rw [readHeaderFromLine, hline, hmatch, Option.map_some, String.ofList_toList,
    String.ofList_toList]
  rfl

theorem readTable_plain (hr : r.HeadWellFormed) (hp : r.Plain decoder) :
    r.readTable = r.headersByName := by
  have hread : readHeaders r.headers = r.headers.map SentHeader.header :=
    filterMap_eq_map_iff_forall_eq_some.mpr fun h hh =>
      readHeaderFromLine_plain (hr.headers h hh) (hp.headers h hh)
  rw [SentRequest.readTable, hread, foldl_set]
  · simp [SentRequest.headersByName]
  · simpa [Function.comp_def] using hp.distinct

theorem readHeader_plain (hr : r.HeadWellFormed) (hp : r.Plain decoder) (name : String) :
    r.readHeader name = r.header name := by
  rw [SentRequest.readHeader, readTable_plain hr hp, SentRequest.header]

theorem toUpperCase_method {s : String} (hs : ∀ c ∈ s.toList, isMethodChar c = true) :
    toUpperCase s = s := by
  have hupper : ∀ c ∈ s.toList, c.toUpper = c := by
    intro c hc
    have hmethod := hs c hc
    have hz : ('Z' : Char).toNat = 90 := rfl
    have ha : ('a' : Char).val.toNat = 97 := rfl
    rw [isMethodChar, Bool.or_eq_true, Bool.and_eq_true, decide_eq_true_eq, decide_eq_true_eq,
      decide_eq_true_eq, char_le_iff, char_le_iff] at hmethod
    refine dif_neg ?_
    rintro ⟨hle, -⟩
    have hnat : ('a' : Char).val.toNat ≤ c.toNat := hle
    rcases hmethod with ⟨-, h⟩ | rfl
    · omega
    · exact absurd hnat (by decide)
  rw [toUpperCase, map_congr_left hupper, map_id', String.ofList_toList]

/-- The buffer has read the head of this request. -/
def Carries (r : SentRequest) (b : RequestBuffer π) : Prop :=
  b.httpMethod = some r.method ∧ b.path = some r.path ∧ b.httpVersion = some r.version ∧
    b.headersByName = r.readTable ∧ b.boundary = none ∧ b.params = [] ∧
    b.completed = false ∧ b.data = []

theorem completeRequest_carries (hr : r.HeadWellFormed) (hp : r.Plain decoder) (hb : Carries r b)
    (hpost : b.postBody = r.body.content) :
    ∃ f, b.completeRequest decoder = .ok f ∧ f.completed = true ∧
      f.request = r.request decoder ∧ f.headersByName = r.headersByName := by
  obtain ⟨hmethod, hpath, hversion, hheaders, hboundary, hparams, -, -⟩ := hb
  rw [readTable_plain hr hp] at hheaders
  have hdecoded := hp.decoded
  have htype : (b.headersByName.get "content-type").map (·.value) = r.header "content-type" := by
    rw [hheaders, SentRequest.header]
  unfold completeRequest
  simp only [header, htype, hboundary, Option.isSome_none, Bool.and_false, hpost]
  unfold SentRequest.request
  unfold SentRequest.params at hdecoded ⊢
  revert hdecoded
  rcases r.body.content.getD [] with _ | ⟨x, content⟩
  · intro _
    refine ⟨_, rfl, rfl, ?_, hheaders⟩
    simp only [hmethod, hpath, hversion, hheaders, hparams]
    rfl
  · intro hdecoded
    dsimp only at hdecoded ⊢
    generalize (if startsWith ((r.header "content-type").getD "") "application/json" = true then
      decoder.json (x :: content) else decoder.query (x :: content)) = decoded at hdecoded ⊢
    cases decoded with
    | none => cases hdecoded
    | some params =>
      refine ⟨_, rfl, rfl, ?_, hheaders⟩
      simp only [hmethod, hpath, hversion, hheaders, hparams]
      rfl

/-- A request that is over, and what remains behind it. -/
def Completes (decoder : BodyDecoder π) (r : SentRequest) (b : RequestBuffer π)
    (data : List UInt8) : Prop :=
  ∃ f, f.completed = true ∧ f.request = r.request decoder ∧
    f.headersByName = r.headersByName ∧ ∀ rest, b.feed decoder (data ++ rest) = .ok (f, some rest)

theorem goOn_completed {f : RequestBuffer π} (hf : f.completed = true) (rest : List UInt8) :
    goOn decoder rest (.ok f) = .ok (f, some rest) := if_pos hf

theorem feed_sized (hr : r.HeadWellFormed) (hp : r.Plain decoder) {data : List UInt8}
    (hbody : r.body = .sized data) (hne : data ≠ []) (hb : Carries r b) (hstate : b.state = .postBody)
    (hlength : b.contentLength = some (some (data.length : ℤ))) (hbuffers : b.postBodyBuffers = some [])
    (hread : b.bodyLength = 0) : Completes decoder r b data := by
  have hpos := length_pos_of_ne_nil hne
  have hcontent : r.body.content = some data := by
    rw [hbody]
    exact if_neg hne
  have hremaining : (max 1 ((data.length : ℤ) - ((0 : ℕ) : ℤ))).toNat = data.length := by omega
  have hreached : lengthReached (some (some (data.length : ℤ))) (0 + data.length) = true := by
    simp only [lengthReached, Bool.and_eq_true, decide_eq_true_eq]
    constructor <;> omega
  obtain ⟨f, hcomplete, hdone, hrequest, hheaders⟩ := completeRequest_carries hr hp
    (b := { b with
      postBodyBuffers := none, bodyLength := 0 + data.length, postBody := some data })
    hb hcontent.symm
  refine ⟨f, hdone, hrequest, hheaders, fun rest => ?_⟩
  have hpost : b.feedPostBody decoder (data ++ rest) = (Except.ok f).map fun b => (b, rest) := by
    simp only [feedPostBody, hbuffers, hlength, hread, hremaining, take_left', drop_left',
      hreached]
    rw [← hcomplete, ← hlength]
    rfl
  have hturn : b.feedOnce decoder (data ++ rest) = (Except.ok f).map fun b => (b, rest) := by
    simpa [feedOnce, hstate] using hpost
  rw [feed_of_turn (append_ne_nil_of_left_ne_nil hne rest) hturn, goOn_completed hdone]

/-! ## Chunked bodies -/

/-- The buffer is in this state of a chunked body, and has these bytes of it. -/
def Chunking (r : SentRequest) (b : RequestBuffer π) (state : ParserState)
    (chars : List UInt8) : Prop :=
  Carries r b ∧ b.state = state ∧ b.chunkedBodyChars = some chars

variable {chars : List UInt8}

variable {state : ParserState}

theorem Chunking.completed (hb : Chunking r b state chars) :
    b.completed = false := hb.1.2.2.2.2.2.2.1

theorem Chunking.data (hb : Chunking r b state chars) : b.data = [] :=
  hb.1.2.2.2.2.2.2.2

variable (decoder) in
theorem feed_chunkLine (hstate : state.readsLine)
    (hb : Chunking r b state chars) {content : List Char} (hcontent : IsLine content) :
    ∃ b', Chunking r b' state chars ∧ ∀ rest,
      b.feed decoder (latin1Bytes (content ++ ['\r', '\n']) ++ rest) =
        goOn decoder rest (b'.parse decoder (content ++ ['\r', '\n'])) := by
  have hline : ∀ c ∈ content ++ ['\r'], c.toNat < 256 ∧ c ≠ '\n' := by
    intro c hc
    rcases mem_append.mp hc with h | h
    · exact ⟨(hcontent c h).1, (hcontent c h).2.2⟩
    · obtain rfl := mem_singleton.mp h
      decide
  have hreads : b.state.readsLine := hb.2.1 ▸ hstate
  have hfeed := fun rest => feed_line decoder hreads hb.data hline rest
  rw [append_assoc] at hfeed
  refine ⟨_, ?_, hfeed⟩
  obtain ⟨⟨hm, hp, hv, hh, hbo, hpa, hc, -⟩, hs, hchars⟩ := hb
  exact ⟨⟨hm, hp, hv, hh, hbo, hpa, hc, rfl⟩, hs, hchars⟩

variable {c : SentChunk}

theorem SentChunk.WellFormed.isLine (hc : c.WellFormed) :
    IsLine (c.size.toList ++ c.extension.toList) :=
  (IsLine.visible fun x hx => isVisible_of_digit le_rfl (hc.size.digits x hx)).append
    (isLine_of_field hc.extension)

theorem parseChunkSizeLine_sizeLine (hc : c.WellFormed) : b.parseChunkSizeLine c.sizeLine =
      if c.data = [] then .ok { b with state := .chunkedTrailer }
      else .ok { b with
        currentChunkSize := some (c.data.length : ℤ), currentChunkBytesRead := 0
        state := .chunkedData } := by
  obtain ⟨htrim, htoken⟩ := chunkSizeToken_sizeLine hc
  have hsize : (parseInt (some 16) c.size).filter isFiniteInteger = some (c.data.length : ℤ) := by
    rw [IsNumber.parseInt (show (some 16).getD 10 ≤ 16 from le_rfl) hc.size, Option.filter_some,
      if_pos (isFiniteInteger_of_le (hc.limit.trans (by decide)))]
  simp only [parseChunkSizeLine, htrim, htoken, hc.size.nonempty, hsize, if_false]
  split
  · rename_i h
    cases h
  · rename_i h
    have hzero : c.data.length = 0 := by exact_mod_cast Option.some.inj h
    rw [if_pos (eq_nil_of_length_eq_zero hzero)]
  · rename_i size hne h
    cases h
    rw [if_neg]
    intro hdata
    exact hne (by rw [hdata]; rfl)

variable (decoder) in
theorem feed_sizeLine (hc : c.WellFormed) (hne : c.data ≠ [])
    (hb : Chunking r b .chunkedSize chars) :
    ∃ b', Chunking r b' .chunkedData chars ∧
      b'.currentChunkSize = some ((b'.currentChunkBytesRead + c.data.length : ℕ) : ℤ) ∧
      ∀ rest, b.feed decoder (latin1Bytes c.sizeLine ++ rest) = b'.feed decoder rest := by
  obtain ⟨b₁, ⟨hcarries, hstate, hchars⟩, hfeed⟩ :=
    feed_chunkLine decoder (by decide) hb hc.isLine
  let b₂ : RequestBuffer π := { b₁ with
    currentChunkSize := some (c.data.length : ℤ), currentChunkBytesRead := 0
    state := .chunkedData }
  have hparse : b₁.parse decoder c.sizeLine = .ok b₂ := by
    simp only [parse, hstate, parseChunkSizeLine_sizeLine hc, if_neg hne]
    rfl
  refine ⟨b₂, ⟨hcarries, rfl, hchars⟩, ?_, fun rest => ?_⟩
  · exact congrArg (fun n : ℕ => some (n : ℤ)) (Nat.zero_add _).symm
  · rw [SentChunk.sizeLine, hfeed, ← SentChunk.sizeLine, hparse, goOn_ok]
    exact hcarries.2.2.2.2.2.2.1

variable (decoder) in
theorem feed_lastLine (hc : c.WellFormed) (hne : c.data = [])
    (hb : Chunking r b .chunkedSize chars) :
    ∃ b', Chunking r b' .chunkedTrailer chars ∧
      ∀ rest, b.feed decoder (latin1Bytes c.sizeLine ++ rest) = b'.feed decoder rest := by
  obtain ⟨b₁, ⟨hcarries, hstate, hchars⟩, hfeed⟩ :=
    feed_chunkLine decoder (by decide) hb hc.isLine
  have hparse : b₁.parse decoder c.sizeLine = .ok { b₁ with state := .chunkedTrailer } := by
    simp only [parse, hstate, parseChunkSizeLine_sizeLine hc, if_pos hne]
  refine ⟨{ b₁ with state := .chunkedTrailer }, ⟨hcarries, rfl, hchars⟩, fun rest => ?_⟩
  rw [SentChunk.sizeLine, hfeed, ← SentChunk.sizeLine, hparse, goOn_ok]
  exact hcarries.2.2.2.2.2.2.1

theorem feed_byte {b' : RequestBuffer π} {char : UInt8} {rest : List UInt8}
    (hturn : b.feedOnce decoder (char :: rest) = (b.feedByte decoder char).map fun b => (b, rest))
    (hbyte : b.feedByte decoder char = .ok b') (hcompleted : b'.completed = false) :
    b.feed decoder (char :: rest) = b'.feed decoder rest := by
  rw [feed_of_turn (cons_ne_nil char rest) hturn, hbyte, goOn_ok rest hcompleted]

variable (decoder) in
theorem feed_chunkData {data : List UInt8} (hne : data ≠ [])
    (hb : Chunking r b .chunkedData chars)
    (hsize : b.currentChunkSize = some ((b.currentChunkBytesRead + data.length : ℕ) : ℤ)) :
    ∃ b', Chunking r b' .chunkedDataCrlf (chars ++ data) ∧ b'.currentChunkCrlfRead = 0 ∧
      ∀ rest, b.feed decoder (data ++ rest) = b'.feed decoder rest := by
  induction data generalizing b chars with
  | nil => exact absurd rfl hne
  | cons char data ih =>
    obtain ⟨hcarries, hstate, hchars⟩ := hb
    have hturn : ∀ rest, b.feedOnce decoder (char :: rest) =
        (b.feedByte decoder char).map fun b => (b, rest) := by
      intro rest
      simp only [feedOnce, hstate]
    cases data with
    | nil =>
      have hle : b.currentChunkSize = some ((b.currentChunkBytesRead + 1 : ℕ) : ℤ) := hsize
      let b' : RequestBuffer π := { b with
        bodyLength := b.bodyLength + if b.readingBody then 1 else 0
        chunkedBodyChars := some (chars ++ [char])
        currentChunkBytesRead := b.currentChunkBytesRead + 1
        currentChunkCrlfRead := 0, state := .chunkedDataCrlf }
      have hbyte : b.feedByte decoder char = .ok b' := by
        simp only [feedByte, hstate, hle, hchars, le_refl, if_true]
        rw [← hle]
      refine ⟨b', ⟨hcarries, rfl, rfl⟩, rfl, fun rest => ?_⟩
      exact feed_byte (hturn rest) hbyte hcarries.2.2.2.2.2.2.1
    | cons next data =>
      have hlt : ¬ ((b.currentChunkBytesRead + (char :: next :: data).length : ℕ) : ℤ) ≤
          ((b.currentChunkBytesRead + 1 : ℕ) : ℤ) := by
        simp only [length_cons]
        push_cast
        omega
      have hbyte : b.feedByte decoder char = .ok { b with
          bodyLength := b.bodyLength + if b.readingBody then 1 else 0
          chunkedBodyChars := some (chars ++ [char])
          currentChunkBytesRead := b.currentChunkBytesRead + 1 } := by
        simp only [feedByte, hstate, hsize, hchars, hlt, if_false]
      obtain ⟨b', hb', hcrlf, hfeed⟩ := ih (cons_ne_nil next data)
        (b := { b with
          bodyLength := b.bodyLength + if b.readingBody then 1 else 0
          chunkedBodyChars := some (chars ++ [char])
          currentChunkBytesRead := b.currentChunkBytesRead + 1 })
        ⟨hcarries, hstate, rfl⟩ (by
          rw [hsize]
          simp only [length_cons]
          congr 2
          omega)
      refine ⟨b', by simpa using hb', hcrlf, fun rest => ?_⟩
      exact (feed_byte (hturn _) hbyte hcarries.2.2.2.2.2.2.1).trans (hfeed rest)

variable (decoder) in
theorem feed_chunkCrlf (hb : Chunking r b .chunkedDataCrlf chars)
    (hcrlf : b.currentChunkCrlfRead = 0) :
    ∃ b', Chunking r b' .chunkedSize chars ∧
      ∀ rest, b.feed decoder (latin1Bytes ['\r', '\n'] ++ rest) = b'.feed decoder rest := by
  obtain ⟨hcarries, hstate, hchars⟩ := hb
  have hcompleted := hcarries.2.2.2.2.2.2.1
  let b₁ : RequestBuffer π := { b with
    bodyLength := b.bodyLength + if b.readingBody then 1 else 0
    currentChunkCrlfRead := 1, state := .chunkedDataCrlf }
  let b₂ : RequestBuffer π := { b₁ with
    bodyLength := b₁.bodyLength + if b.readingBody then 1 else 0
    currentChunkCrlfRead := 2, currentChunkBytesRead := 0, state := .chunkedSize }
  have hcr : b.feedByte decoder 13 = .ok b₁ := by
    have hnot : ¬ 2 ≤ 0 + 1 := by decide
    simp only [feedByte, hstate, hcrlf, hnot, if_false]
    rfl
  have hlf : b₁.feedByte decoder 10 = .ok b₂ := by
    have hstate₁ : b₁.state = .chunkedDataCrlf := rfl
    have hcrlf₁ : b₁.currentChunkCrlfRead = 1 := rfl
    have hle : 2 ≤ 1 + 1 := le_rfl
    simp only [feedByte, hstate₁, hcrlf₁, hle, if_true]
    rfl
  have hturn : ∀ (b : RequestBuffer π), b.state = .chunkedDataCrlf → ∀ char rest,
      b.feedOnce decoder (char :: rest) = (b.feedByte decoder char).map fun b => (b, rest) := by
    intro b hb char rest
    simp only [feedOnce, hb]
  refine ⟨b₂, ⟨hcarries, rfl, hchars⟩, fun rest => ?_⟩
  exact (feed_byte (hturn b hstate 13 _) hcr hcompleted).trans
    (feed_byte (hturn b₁ rfl 10 rest) hlf hcompleted)

variable (decoder) in
theorem feed_chunk (hc : c.WellFormed) (hne : c.data ≠ []) (hb : Chunking r b .chunkedSize chars) :
    ∃ b', Chunking r b' .chunkedSize (chars ++ c.data) ∧
      ∀ rest, b.feed decoder (c.encode ++ rest) = b'.feed decoder rest := by
  obtain ⟨b₁, hb₁, hsize, hline⟩ := feed_sizeLine decoder hc hne hb
  obtain ⟨b₂, hb₂, hcrlf, hdata⟩ := feed_chunkData decoder hne hb₁ hsize
  obtain ⟨b₃, hb₃, hbreak⟩ := feed_chunkCrlf decoder hb₂ hcrlf
  refine ⟨b₃, hb₃, fun rest => ?_⟩
  rw [SentChunk.encode, append_assoc, append_assoc, hline, hdata, hbreak]

variable (decoder) in
theorem feed_chunks {chunks : List SentChunk} (hchunks : ∀ c ∈ chunks, c.WellFormed ∧ c.data ≠ [])
    (hb : Chunking r b .chunkedSize chars) :
    ∃ b', Chunking r b' .chunkedSize (chars ++ chunks.flatMap (·.data)) ∧
      ∀ rest, b.feed decoder (chunks.flatMap SentChunk.encode ++ rest) = b'.feed decoder rest := by
  induction chunks generalizing b chars with
  | nil => exact ⟨b, by simpa using hb, fun rest => rfl⟩
  | cons c chunks ih =>
    obtain ⟨hc, hne⟩ := hchunks c mem_cons_self
    obtain ⟨b₁, hb₁, hfirst⟩ := feed_chunk decoder hc hne hb
    obtain ⟨b', hb', hrest⟩ := ih (fun d hd => hchunks d (mem_cons_of_mem c hd)) hb₁
    refine ⟨b', by simpa using hb', fun rest => ?_⟩
    rw [flatMap_cons, append_assoc, hfirst, hrest]

variable (decoder) in
theorem feed_trailer {trailer : List SentHeader} (htrailer : ∀ h ∈ trailer, h.WellFormed)
    (hb : Chunking r b .chunkedTrailer chars) :
    ∃ b', Chunking r b' .chunkedTrailer chars ∧
      ∀ rest, b.feed decoder (trailer.flatMap SentHeader.encode ++ rest) = b'.feed decoder rest := by
  induction trailer generalizing b with
  | nil => exact ⟨b, hb, fun rest => rfl⟩
  | cons h trailer ih =>
    have hh := htrailer h mem_cons_self
    obtain ⟨b₁, hb₁, hline⟩ := feed_chunkLine decoder (by decide) hb hh.isLine
    have hparse : b₁.parse decoder h.line = .ok b₁ := by
      simp only [parse, hb₁.2.1, if_neg (SentHeader.line_ne hh)]
    obtain ⟨b', hb', hrest⟩ := ih (fun h' hh' => htrailer h' (mem_cons_of_mem h hh')) hb₁
    refine ⟨b', hb', fun rest => ?_⟩
    rw [flatMap_cons, append_assoc, SentHeader.encode, SentHeader.line, hline,
      ← SentHeader.line, hparse, goOn_ok _ hb₁.completed, hrest]

theorem feed_chunkedEnd (hr : r.HeadWellFormed) (hp : r.Plain decoder)
    (hcontent : r.body.content = some chars)
    (hb : Chunking r b .chunkedTrailer chars) :
    Completes decoder r b (latin1Bytes ['\r', '\n']) := by
  have hline : IsLine [] := fun c hc => absurd hc not_mem_nil
  obtain ⟨b₁, ⟨hcarries, hstate, hchars⟩, hfeed⟩ :=
    feed_chunkLine decoder (by decide) hb hline
  obtain ⟨f, hcomplete, hdone, hrequest, hheaders⟩ := completeRequest_carries hr hp
    (b := { b₁ with postBody := some chars, chunkedBodyChars := none }) hcarries hcontent.symm
  have hparse : b₁.parse decoder ['\r', '\n'] = .ok f := by
    simp only [parse, hstate, if_true, finishChunkedBody, hchars]
    exact hcomplete
  refine ⟨f, hdone, hrequest, hheaders, fun rest => ?_⟩
  have hend := hfeed rest
  rw [nil_append, hparse, goOn_completed hdone] at hend
  exact hend

/-- **A chunked body is its chunks.** -/
theorem feed_chunked (hr : r.HeadWellFormed) (hp : r.Plain decoder)
    {chunks : List SentChunk} {last : SentChunk}
    {trailer : List SentHeader} (hbody : r.body = .chunked chunks last trailer)
    (hchunks : ∀ c ∈ chunks, c.WellFormed ∧ c.data ≠ []) (hlast : last.WellFormed)
    (hempty : last.data = []) (htrailer : ∀ h ∈ trailer, h.WellFormed)
    (hb : Chunking r b .chunkedSize []) : Completes decoder r b r.body.encode := by
  obtain ⟨b₁, hb₁, hdata⟩ := feed_chunks decoder hchunks hb
  obtain ⟨b₂, hb₂, hline⟩ := feed_lastLine decoder hlast hempty hb₁
  obtain ⟨b₃, hb₃, hskip⟩ := feed_trailer decoder htrailer hb₂
  have hcontent : r.body.content = some ([] ++ chunks.flatMap (·.data)) := by
    rw [hbody]
    rfl
  obtain ⟨f, hdone, hrequest, hheaders, hend⟩ := feed_chunkedEnd hr hp hcontent hb₃
  refine ⟨f, hdone, hrequest, hheaders, fun rest => ?_⟩
  rw [hbody, SentBody.encode, append_assoc, append_assoc, append_assoc, hdata, hline,
    hskip, hend]

end Velocious
