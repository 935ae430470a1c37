/-
  Pipelined requests are executed as they were sent, wherever their bytes are cut.

  `feed_request`: a well-formed plain request is taken off the stream, and nothing
  else is. `pipelined_requests_executed` puts requests and chunks together, and says
  which length fields and chunk sizes are refused: those in which `parseInt` finds no
  number at all, and the chunk sizes that it reads as `Infinity`.
-/
import Velocious.HttpServer.RequestBodies

namespace Velocious

open Foundation RequestBuffer List

attribute [local instance (high)] List.decidableBAll Option.decidableForallMem

variable {π : Type} {decoder : BodyDecoder π} {b : RequestBuffer π} {r : SentRequest}

/-! ## The empty line behind a head -/

namespace SentRequest

def IsMethod (r : SentRequest) : Prop := ∀ c ∈ r.method.toList, isMethodChar c = true

def ReadsChunked (r : SentRequest) : Prop :=
  ∃ encoding, r.readHeader "transfer-encoding" = some encoding ∧
    includes (toLowerCase encoding) "chunked" = true

def LengthRefused (r : SentRequest) : Prop :=
  expectsRequestBody r.method = true ∧ ¬ r.ReadsChunked ∧
    (r.readHeader "content-type").bind matchBoundary = none ∧
    ∃ length, r.readHeader "content-length" = some length ∧ parseInt none length = none

end SentRequest

theorem isChunkedEncoding_head :
    (r.head : RequestBuffer π).isChunkedEncoding = true ↔ r.ReadsChunked := by
  unfold isChunkedEncoding SentRequest.ReadsChunked
  rw [show (r.head : RequestBuffer π).header "transfer-encoding" =
    r.readHeader "transfer-encoding" from rfl]
  cases r.readHeader "transfer-encoding" <;> simp

theorem completeRequest_head (decoder : BodyDecoder π) (hb : b.postBody = none) :
    b.completeRequest decoder = .ok { b with state := .status, completed := true } := by
  unfold completeRequest
  simp only [hb, Option.getD_none, ite_self]

def SentRequest.reading (r : SentRequest) : RequestBuffer π :=
  { r.head with readingBody := true, bodyLength := 0 }

theorem endHeaders_head (decoder : BodyDecoder π) (hr : r.HeadWellFormed) (hm : r.IsMethod) :
    (r.head : RequestBuffer π).endHeaders decoder =
      if expectsRequestBody r.method = false then r.head.completeRequest decoder
      else if (r.head : RequestBuffer π).isChunkedEncoding = true then
        .ok r.reading.initializeChunkedBody
      else
        match (r.readHeader "content-type").bind matchBoundary with
        | some boundary =>
          .ok { r.reading with boundary := some boundary, state := .multiPartFormData }
        | none =>
          match (r.readHeader "content-length").map (parseInt none) with
          | none | some (some 0) => r.reading.completeRequest decoder
          | some none => .error (.message "Content length is invalid")
          | some (some _) =>
            .ok { r.reading with postBodyBuffers := some [], state := .postBody } := by
  have hmethod : orNull ((r.head : RequestBuffer π).httpMethod.map toUpperCase) = some r.method := by
    rw [orNull_eq_some]
    exact ⟨congrArg some (toUpperCase_method hm), hr.method.1⟩
  simp only [endHeaders, hmethod]
  cases expectsRequestBody r.method <;> rfl

theorem endHeaders_error (hr : r.HeadWellFormed) (hm : r.IsMethod) :
    (∃ e, (r.head : RequestBuffer π).endHeaders decoder = .error e) ↔ r.LengthRefused := by
  have hnone : ∀ b : RequestBuffer π, b.postBody = none →
      ¬ ∃ e, b.completeRequest decoder = .error e := by
    rintro b hb ⟨e, he⟩
    rw [completeRequest_head decoder hb] at he
    cases he
  rw [endHeaders_head decoder hr hm]
  cases hexpects : expectsRequestBody r.method with
  | false =>
    refine iff_of_false (hnone _ rfl) ?_
    rintro ⟨h, -⟩
    rw [hexpects] at h
    cases h
  | true =>
    unfold SentRequest.LengthRefused
    rw [← isChunkedEncoding_head (π := π)]
    cases (r.head : RequestBuffer π).isChunkedEncoding with
    | true =>
      refine iff_of_false (by rintro ⟨e, ⟨⟩⟩) ?_
      rintro ⟨-, h, -⟩
      exact h rfl
    | false =>
      simp only [Bool.true_eq_false, Bool.false_eq_true, if_false, not_false_eq_true, hexpects,
        true_and]
      rcases (r.readHeader "content-type").bind matchBoundary with _ | boundary
      · rcases r.readHeader "content-length" with _ | value
        · exact iff_of_false (hnone _ rfl) (by rintro ⟨-, length, ⟨⟩, -⟩)
        · simp only [Option.map_some, true_and, Option.some.injEq, exists_eq_left']
          rcases parseInt none value with _ | length
          · exact iff_of_true ⟨_, rfl⟩ rfl
          · refine iff_of_false ?_ (Option.some_ne_none length)
            split
            · exact hnone _ rfl
            · exact hnone _ rfl
            · rename_i h
              cases h
            · rintro ⟨e, ⟨⟩⟩
      · exact iff_of_false (by rintro ⟨e, ⟨⟩⟩) (by rintro ⟨⟨⟩, -⟩)

theorem endHeaders_length (decoder : BodyDecoder π) (hr : r.HeadWellFormed) (hm : r.IsMethod)
    (hexpects : expectsRequestBody r.method = true)
    (hchunked : ¬ r.ReadsChunked)
    (htype : (r.readHeader "content-type").bind matchBoundary = none) {length : ℕ}
    (hlength : (r.readHeader "content-length").map (parseInt none) = some (some (length : ℤ))) :
    (r.head : RequestBuffer π).endHeaders decoder =
      if length = 0 then r.reading.completeRequest decoder
      else .ok { r.reading with postBodyBuffers := some [], state := .postBody } := by
  rw [endHeaders_head decoder hr hm, hexpects, if_neg (mt isChunkedEncoding_head.mp hchunked), htype, hlength]
  cases length with
  | zero => rfl
  | succ n =>
    rfl

section
variable (hr : r.WellFormed) (hp : r.Plain decoder)
include hr hp

theorem completes_head (hb : Carries r b)
    (hpost : b.postBody = none) (hcontent : r.body.content = none) (hencode : r.body.encode = [])
    (hheaders : (r.head : RequestBuffer π).endHeaders decoder = b.completeRequest decoder) :
    Completes decoder r .empty r.encode := by
  obtain ⟨f, hf, hdone, hrequest, hby⟩ := completeRequest_carries hr.toHeadWellFormed hp hb
    (hpost.trans hcontent.symm)
  refine ⟨f, hdone, hrequest, hby, fun rest => ?_⟩
  rw [SentRequest.encode, hencode, append_nil, feed_head hr.toHeadWellFormed hp.method,
    hheaders, hf, goOn_completed hdone]

theorem completes_body (hheaders : (r.head : RequestBuffer π).endHeaders decoder = .ok b)
    (hcompleted : b.completed = false) (hbody : Completes decoder r b r.body.encode) :
    Completes decoder r .empty r.encode := by
  obtain ⟨f, hdone, hrequest, hby, hfeed⟩ := hbody
  refine ⟨f, hdone, hrequest, hby, fun rest => ?_⟩
  rw [SentRequest.encode, append_assoc, feed_head hr.toHeadWellFormed hp.method, hheaders,
    goOn_ok _ hcompleted, hfeed]

/-- **A plain request is taken off the stream, and nothing else is.** -/
theorem feed_request :
    Completes decoder r .empty r.encode := by
  have hm : r.IsMethod := hp.method
  have hend := endHeaders_head decoder hr.toHeadWellFormed hm
  have hread := readHeader_plain hr.toHeadWellFormed hp
  have hcarries : Carries r (r.head : RequestBuffer π) := ⟨rfl, rfl, rfl, rfl, rfl, rfl, rfl, rfl⟩
  have hreading : Carries r (r.reading : RequestBuffer π) := hcarries
  have hwf := hr.body
  have hform := hp.form
  cases hexpects : expectsRequestBody r.method with
  | false =>
    have hencode := hp.expected hexpects
    rw [hexpects, if_pos rfl] at hend
    refine completes_head hr hp hcarries rfl ?_ hencode hend
    cases hkind : r.body with
    | none => rfl
    | sized data =>
      rw [hkind] at hencode
      exact if_pos hencode
    | chunked chunks last trailer =>
      rw [hkind, SentBody.encode, append_eq_nil_iff] at hencode
      cases hencode.2
    | multipart boundary parts => exact absurd hkind (hform boundary parts)
  | true =>
    have hplain : r.header "transfer-encoding" = none → ¬ r.ReadsChunked := by
      rintro hencoding ⟨encoding, h, -⟩
      rw [hread, hencoding] at h
      cases h
    have htype : (∀ chunks last trailer, r.body ≠ .chunked chunks last trailer) →
        (r.readHeader "content-type").bind matchBoundary = none := by
      intro hchunked
      rw [hread]
      exact hp.contentType hexpects hchunked
    cases hkind : r.body with
    | multipart boundary parts => exact absurd hkind (hform boundary parts)
    | chunked chunks last trailer =>
      rw [SentRequest.BodyWellFormed, hkind] at hwf
      obtain ⟨⟨encoding, hencoding, hincludes⟩, hchunks, hlast, hempty, htrailer⟩ := hwf
      have hchunked : r.ReadsChunked := ⟨encoding, by rw [hread]; exact hencoding, hincludes⟩
      rw [hexpects, if_pos (isChunkedEncoding_head.mpr hchunked)] at hend
      exact completes_body hr hp hend rfl (feed_chunked hr.toHeadWellFormed hp hkind hchunks hlast
        hempty htrailer ⟨hreading, rfl, rfl⟩)
    | none =>
      rw [SentRequest.BodyWellFormed, hkind] at hwf
      obtain ⟨hencoding, hlength⟩ := hwf
      have hcontent : r.body.content = none := by rw [hkind]; rfl
      have hencode : r.body.encode = [] := by rw [hkind]; rfl
      have hnochunks := htype (by simp [hkind])
      refine completes_head hr hp hreading rfl hcontent hencode ?_
      cases hvalue : r.header "content-length" with
      | none =>
        rw [hend, hexpects, if_neg Bool.noConfusion,
          if_neg (mt isChunkedEncoding_head.mp (hplain hencoding)), hnochunks, hread, hvalue]
        rfl
      | some value =>
        have hnumber := IsNumber.parseInt (show (none : Option ℕ).getD 10 ≤ 16 by decide)
          (hlength value hvalue)
        have hzero : (r.readHeader "content-length").map (parseInt none) =
            some (some ((0 : ℕ) : ℤ)) := by
          rw [hread, hvalue]
          exact congrArg some hnumber
        exact endHeaders_length decoder hr.toHeadWellFormed hm hexpects (hplain hencoding) hnochunks
          hzero
    | sized data =>
      rw [SentRequest.BodyWellFormed, hkind] at hwf
      obtain ⟨hencoding, -, value, hvalue, hnumber⟩ := hwf
      have hlength : (r.readHeader "content-length").map (parseInt none) =
          some (some ((data.length : ℕ) : ℤ)) := by
        rw [hread, hvalue]
        exact congrArg some
          (IsNumber.parseInt (show (none : Option ℕ).getD 10 ≤ 16 by decide) hnumber)
      have hheaders := endHeaders_length decoder hr.toHeadWellFormed hm hexpects
        (hplain hencoding) (htype (by simp [hkind])) hlength
      rcases eq_or_ne data [] with rfl | hne
      · have hcontent : r.body.content = none := by rw [hkind]; rfl
        have hencode : r.body.encode = [] := by rw [hkind]; rfl
        exact completes_head hr hp hreading rfl hcontent hencode hheaders
      · rw [if_neg (mt eq_nil_of_length_eq_zero hne)] at hheaders
        have hbody : r.body.encode = data := by rw [hkind]; rfl
        refine completes_body hr hp hheaders rfl ?_
        rw [hbody]
        exact feed_sized hr.toHeadWellFormed hp hkind hne hreading rfl hlength rfl rfl

end

/-! ## The client -/

variable {c : RequestClient π} {data : List UInt8}

theorem not_upgrade (hp : r.Plain decoder) (hb : b.headersByName = r.headersByName) :
    RequestClient.isWebsocketUpgrade b = false := by
  have hheader : ∀ name, b.header name = r.header name := by
    intro name
    rw [RequestBuffer.header, hb, SentRequest.header]
  rw [Bool.eq_false_iff]
  intro hupgrade
  rw [RequestClient.isWebsocketUpgrade, Bool.and_eq_true, decide_eq_true_eq, decide_eq_true_eq,
    hheader, hheader, Option.map_eq_some_iff, Option.map_eq_some_iff] at hupgrade
  obtain ⟨⟨upgrade, hu, hlower⟩, connection, hc, hincludes⟩ := hupgrade
  exact hp.upgrade ⟨upgrade, connection, hu, hlower, hc, hincludes⟩

theorem onWrite_badRequest (hc : c.Reading none) (hne : data ≠ [])
    {next : Except RequestError (RequestBuffer π)}
    (hfeed : RequestBuffer.empty.feed decoder data = goOn decoder [] next) :
    (c.onWrite decoder data).outcomes = c.outcomes ++ [.badRequest] ↔ ∃ e, next = .error e := by
  have hwrite : c.onWrite decoder data =
      (c.writeOnce decoder data).1.writeTurns decoder (data.length - 1)
        (c.writeOnce decoder data).2 := by
    obtain ⟨x, tail, rfl⟩ := exists_cons_of_ne_nil hne
    rw [RequestClient.onWrite, hc.1]
    rfl
  rw [hwrite]
  cases next with
  | error e =>
    rw [RequestClient.writeOnce_error hc (show _ = Except.error e from hfeed),
      RequestClient.writeTurns_nil]
    exact iff_of_true rfl ⟨e, rfl⟩
  | ok b =>
    refine iff_of_false ?_ (by rintro ⟨e, ⟨⟩⟩)
    cases hcompleted : b.completed with
    | false =>
      rw [goOn_ok [] hcompleted] at hfeed
      rw [RequestClient.writeOnce_open hc hfeed, RequestClient.writeTurns_nil]
      exact fun h => cons_ne_nil _ _ (self_eq_append_right.mp h)
    | true =>
      rw [goOn_completed hcompleted] at hfeed
      obtain ⟨outcome, houtcome, hout, hrest⟩ := RequestClient.writeOnce_over hc hfeed
      rw [hrest, RequestClient.writeTurns_nil, hout]
      intro h
      exact houtcome (List.cons.inj (append_cancel_left h)).1

/-- A chunk size line is refused: `parseInt` finds no number in it, or an infinite one. -/
def SizeRefused (line : List Char) : Prop :=
  let trimmed := trim (.ofList line)
  trimmed ≠ "" ∧
    (chunkSizeToken trimmed = "" ∨
      ∀ size, parseInt (some 16) (chunkSizeToken trimmed) = some size →
        infinityFrom ≤ size.natAbs)

theorem parseChunkSizeLine_error (line : List Char) :
    (∃ e, b.parseChunkSizeLine line = .error e) ↔ SizeRefused line := by
  unfold parseChunkSizeLine SizeRefused
  by_cases htrim : trim (.ofList line) = ""
  · rw [if_pos htrim]
    exact iff_of_false (by rintro ⟨e, ⟨⟩⟩) fun h => h.1 htrim
  by_cases htoken : chunkSizeToken (trim (.ofList line)) = ""
  · rw [if_neg htrim, if_pos htoken]
    exact iff_of_true ⟨_, rfl⟩ ⟨htrim, .inl htoken⟩
  rw [if_neg htrim, if_neg htoken]
  have hrefused : ∀ {size}, (parseInt (some 16)
      (chunkSizeToken (trim (.ofList line)))).filter isFiniteInteger = some size →
      ¬ (trim (.ofList line) ≠ "" ∧ (chunkSizeToken (trim (.ofList line)) = "" ∨
        ∀ size, parseInt (some 16) (chunkSizeToken (trim (.ofList line))) = some size →
          infinityFrom ≤ size.natAbs)) := by
    rintro size h ⟨-, h' | h'⟩
    · exact htoken h'
    · obtain ⟨hread, hfinite⟩ := Option.filter_eq_some_iff.mp h
      exact absurd (of_decide_eq_true hfinite) (Nat.not_lt.mpr (h' size hread))
  split
  · rename_i h
    refine iff_of_true ⟨_, rfl⟩ ⟨htrim, .inr fun size hread => Nat.not_lt.mp fun hlt => ?_⟩
    exact Option.filter_eq_none_iff.mp h size hread (decide_eq_true hlt)
  · rename_i h
    exact iff_of_false (by rintro ⟨e, ⟨⟩⟩) (hrefused h)
  · rename_i h
    exact iff_of_false (by rintro ⟨e, ⟨⟩⟩) (hrefused h)

theorem feed_sizeField (decoder : BodyDecoder π) (hr : r.HeadWellFormed) (hm : r.IsMethod)
    (hexpects : expectsRequestBody r.method = true) (hchunked : r.ReadsChunked)
    {chunks : List SentChunk} (hchunks : ∀ c ∈ chunks, c.WellFormed ∧ c.data ≠ [])
    {line : List Char} (hline : ∀ x ∈ line, x.toNat < 256 ∧ x ≠ '\n') :
    ∃ b : RequestBuffer π, RequestBuffer.empty.feed decoder
        (r.encodeHead ++ chunks.flatMap SentChunk.encode ++ latin1Bytes (line ++ ['\n'])) =
      goOn decoder [] (b.parseChunkSizeLine (line ++ ['\n'])) := by
  have hend := endHeaders_head decoder hr hm
  rw [hexpects, if_neg Bool.noConfusion, if_pos (isChunkedEncoding_head.mpr hchunked)] at hend
  have hstart : Chunking r (r.reading.initializeChunkedBody : RequestBuffer π) .chunkedSize [] :=
    ⟨⟨rfl, rfl, rfl, rfl, rfl, rfl, rfl, rfl⟩, rfl, rfl⟩
  obtain ⟨b, hb, hdata⟩ := feed_chunks decoder hchunks hstart
  have hreads : b.state.readsLine := by
    rw [hb.2.1]
    decide
  have hfeed := feed_line decoder hreads hb.data hline []
  let b' : RequestBuffer π := { b with
    bodyLength := b.bodyLength + if b.readingBody then line.length + 1 else 0
    data := [] }
  have hparse : b'.parse decoder (line ++ ['\n']) = b'.parseChunkSizeLine (line ++ ['\n']) := by
    simp [parse, show b'.state = .chunkedSize from hb.2.1]
  rw [append_nil] at hfeed
  refine ⟨b', ?_⟩
  rw [append_assoc, feed_head hr hm, hend, goOn_ok _ hstart.completed, hdata, hfeed, hparse]

theorem executed_items {requests : List SentRequest} {items : List (RequestBuffer π)}
    (h : List.Forall₂ (fun r b => b.request = r.request decoder ∧
      RequestClient.isWebsocketUpgrade b = false) requests items) :
    items.map (fun b => RequestOutcome.executed b.request) =
        requests.map (fun r => .executed (r.request decoder)) ∧
      ∀ b ∈ items, RequestClient.isWebsocketUpgrade b = false := by
  induction h with
  | nil => exact ⟨rfl, fun b hb => absurd hb not_mem_nil⟩
  | cons hfirst _ ih =>
    obtain ⟨hrequest, hupgrade⟩ := hfirst
    obtain ⟨hmap, hall⟩ := ih
    constructor
    · rw [map_cons, map_cons, hrequest, hmap]
    · intro b hb
      rcases mem_cons.mp hb with rfl | hb
      · exact hupgrade
      · exact hall b hb

/-- **Pipelined requests are executed as they were sent, wherever their bytes are cut, and a
length field or a chunk size is refused if `parseInt` finds no number (for a size: no finite
one) in it.** -/
theorem pipelined_requests_executed (decoder : BodyDecoder π) (hinitial : c.state = .initial)
    (hsession : c.websocketSession = false) :
    (∀ (requests : List SentRequest) (chunks : List (List UInt8)),
      (∀ r ∈ requests, r.WellFormed ∧ r.Plain decoder) →
      chunks.flatten = requests.flatMap SentRequest.encode →
      (chunks.foldl (RequestClient.onWrite decoder) c).outcomes =
          c.outcomes ++ requests.map (fun r => .executed (r.request decoder)) ∧
        (chunks.foldl (RequestClient.onWrite decoder) c).state = c.state ∧
        (chunks.foldl (RequestClient.onWrite decoder) c).websocketSession = false) ∧
    (∀ r : SentRequest, r.HeadWellFormed → r.IsMethod →
      ((c.onWrite decoder r.encodeHead).outcomes = c.outcomes ++ [.badRequest] ↔
        r.LengthRefused)) ∧
    ∀ (r : SentRequest) (chunks : List SentChunk) (line : List Char), r.HeadWellFormed →
      r.IsMethod → expectsRequestBody r.method = true → r.ReadsChunked →
      (∀ c ∈ chunks, c.WellFormed ∧ c.data ≠ []) → (∀ x ∈ line, x.toNat < 256 ∧ x ≠ '\n') →
      ((c.onWrite decoder (r.encodeHead ++ chunks.flatMap SentChunk.encode ++
          latin1Bytes (line ++ ['\n']))).outcomes = c.outcomes ++ [.badRequest] ↔
        SizeRefused (line ++ ['\n'])) := by
  have hc : c.Reading none := ⟨hsession, hinitial⟩
  have hhead_ne : ∀ r : SentRequest, r.encodeHead ≠ [] := by
    intro r h
    have hend := (append_eq_nil_iff.mp h).2
    cases hend
  refine ⟨?_, ?_, ?_⟩
  · intro requests chunks hrequests hchunks
    have hread : ∀ r ∈ requests, r.encode ≠ [] ∧ ∃ f : RequestBuffer π,
        (f.request = r.request decoder ∧ RequestClient.isWebsocketUpgrade f = false) ∧
          ∀ rest, RequestBuffer.empty.feed decoder (r.encode ++ rest) = .ok (f, some rest) := by
      intro r hr
      obtain ⟨hwf, hplain⟩ := hrequests r hr
      obtain ⟨f, -, hrequest, hby, hfeed⟩ := feed_request hwf hplain
      refine ⟨append_ne_nil_of_left_ne_nil (hhead_ne r) _, f, ⟨hrequest, ?_⟩, hfeed⟩
      exact not_upgrade hplain hby
    obtain ⟨items, hserve, hitems⟩ := Reader.serve_flatMap (feedOnce_lawful decoder) hread
    obtain ⟨hmap, hupgrade⟩ := executed_items hitems
    rw [← hchunks] at hserve
    obtain ⟨⟨hend, hstate⟩, houtcomes⟩ := RequestClient.serves hc hserve hupgrade
    exact ⟨houtcomes.trans (congrArg (c.outcomes ++ ·) hmap), hstate.trans hinitial.symm, hend⟩
  · intro r hr hm
    have hfeed := @feed_head π decoder r hr hm []
    rw [append_nil] at hfeed
    exact (onWrite_badRequest hc (hhead_ne r) hfeed).trans (endHeaders_error hr hm)
  · intro r chunks line hr hm hexpects hchunked hchunks hline
    obtain ⟨b, hfeed⟩ := feed_sizeField decoder hr hm hexpects hchunked hchunks hline
    refine (onWrite_badRequest hc ?_ hfeed).trans (parseChunkSizeLine_error _)
    rw [append_assoc]
    exact append_ne_nil_of_left_ne_nil (hhead_ne r) _

/-! ## Two requests, and a form -/

def acceptingDecoder : BodyDecoder Unit := ⟨fun _ => some (), fun _ => some (), fun _ => some ()⟩

def getRequest : SentRequest := ⟨"GET", "/a", "1.1", [⟨"Host", " ", "h", ""⟩], .none⟩

def chunkedRequest : SentRequest :=
  ⟨"POST", "/b", "1.1", [⟨"Transfer-Encoding", " ", "chunked", ""⟩],
    .chunked [⟨"03", ";x", [97, 98, 99]⟩] ⟨"0", "", []⟩ []⟩

theorem getRequest_plain : getRequest.WellFormed ∧ getRequest.Plain acceptingDecoder := by
  refine ⟨⟨⟨⟨by decide, by decide⟩, ⟨by decide, by decide⟩, ⟨by decide, by decide⟩, ?_⟩, ?_⟩, ?_⟩
  · intro h hh
    obtain rfl := mem_singleton.mp hh
    exact ⟨⟨by decide, by decide⟩, by unfold IsBlank; decide, by decide, by decide, by decide,
      by unfold IsBlank; decide⟩
  · exact ⟨by decide, fun length h => by cases h⟩
  · refine ⟨by decide, ?_, by decide, fun _ => rfl, fun _ _ => SentBody.noConfusion, ?_, rfl, ?_⟩
    · intro h hh
      obtain rfl := mem_singleton.mp hh
      exact ⟨rfl, rfl, by decide, by decide, by decide⟩
    · intro h
      exact absurd h (by decide)
    · rintro ⟨upgrade, connection, h, -⟩
      cases h

theorem chunkedRequest_plain :
    chunkedRequest.WellFormed ∧ chunkedRequest.Plain acceptingDecoder := by
  refine ⟨⟨⟨⟨by decide, by decide⟩, ⟨by decide, by decide⟩, ⟨by decide, by decide⟩, ?_⟩, ?_⟩, ?_⟩
  · intro h hh
    obtain rfl := mem_singleton.mp hh
    exact ⟨⟨by decide, by decide⟩, by unfold IsBlank; decide, by decide, by decide, by decide,
      by unfold IsBlank; decide⟩
  · refine ⟨⟨"chunked", by decide +kernel, by decide +kernel⟩, ?_, ?_, rfl,
      fun h hh => absurd hh not_mem_nil⟩
    · intro c hc
      obtain rfl := mem_singleton.mp hc
      exact ⟨⟨⟨by decide, by decide, by decide⟩, by decide, .inr (by decide), by decide⟩, by decide⟩
    · exact ⟨⟨by decide, by decide, by decide⟩, by decide, .inl rfl, by decide⟩
  · refine ⟨by decide, ?_, by decide, ?_, fun _ _ => SentBody.noConfusion, ?_, rfl, ?_⟩
    · intro h hh
      obtain rfl := mem_singleton.mp hh
      exact ⟨rfl, rfl, by decide, by decide, by decide⟩
    · intro h
      exact absurd h (by decide)
    · intro _ h
      exact absurd rfl (h _ _ _)
    · rintro ⟨upgrade, connection, h, -⟩
      cases h

/-- Two requests, whose bytes are cut somewhere. -/
theorem pipelined_requests_executed_two :
    ([(getRequest.encode ++ chunkedRequest.encode).take 40,
        (getRequest.encode ++ chunkedRequest.encode).drop 40].foldl
      (RequestClient.onWrite acceptingDecoder) .initial).outcomes =
      [getRequest, chunkedRequest].map fun r => .executed (r.request acceptingDecoder) := by
  have hall := (pipelined_requests_executed acceptingDecoder (c := .initial) rfl rfl).1
    [getRequest, chunkedRequest]
    [(getRequest.encode ++ chunkedRequest.encode).take 40,
      (getRequest.encode ++ chunkedRequest.encode).drop 40]
  have hflatten : [(getRequest.encode ++ chunkedRequest.encode).take 40,
      (getRequest.encode ++ chunkedRequest.encode).drop 40].flatten =
      [getRequest, chunkedRequest].flatMap SentRequest.encode := by
    rw [flatten_cons, flatten_singleton, take_append_drop, flatMap_cons,
      flatMap_singleton]
  have hplain : ∀ r ∈ [getRequest, chunkedRequest], r.WellFormed ∧ r.Plain acceptingDecoder := by
    intro r hr
    rcases mem_pair.mp hr with rfl | rfl
    · exact getRequest_plain
    · exact chunkedRequest_plain
  exact (hall hplain hflatten).1.trans (nil_append _)

def formRequest : SentRequest :=
  ⟨"POST", "/", "1.1",
    [⟨"Content-Type", " ", "multipart/form-data; boundary=b", ""⟩,
      ⟨"Content-Length", " ", "59", ""⟩],
    .multipart "b" [⟨[⟨"Content-Disposition", " ", "form-data; name=\"a\"", ""⟩], [120]⟩]⟩

def lengthRequest : SentRequest :=
  ⟨"POST", "/", "1.1", [⟨"Content-Length", " ", "5abc", ""⟩], .none⟩

/-- A form that is closed by a line break is answered twice, and a length field with
letters is read as a number. -/
theorem form_answered_twice :
    formRequest.WellFormed ∧
      (RequestClient.initial.onWrite acceptingDecoder formRequest.encode).outcomes.length = 2 ∧
      lengthRequest.header "content-length" = some "5abc" ∧ ¬ (∃ n, IsNumber 10 "5abc" n) ∧
      (RequestClient.initial.onWrite acceptingDecoder lengthRequest.encodeHead).outcomes = [] := by
  refine ⟨⟨⟨⟨by decide, by decide⟩, ⟨by decide, by decide⟩, ⟨by decide, by decide⟩, ?_⟩, ?_⟩, ?_, ?_,
    ?_, ?_⟩
  · intro h hh
    rcases mem_pair.mp hh with rfl | rfl
    · exact ⟨⟨by decide, by decide⟩, by unfold IsBlank; decide, by decide, by decide, by decide,
        by unfold IsBlank; decide⟩
    · exact ⟨⟨by decide, by decide⟩, by unfold IsBlank; decide, by decide, by decide, by decide,
        by unfold IsBlank; decide⟩
  · refine ⟨by decide +kernel, ⟨by decide, by decide⟩, by decide +kernel, ?_, by decide, ?_⟩
    · exact ⟨"59", by decide +kernel, ⟨by decide, by decide, by decide⟩⟩
    · intro part hpart
      obtain rfl := mem_singleton.mp hpart
      refine ⟨?_, ?_, by decide⟩
      · intro h hh
        obtain rfl := mem_singleton.mp hh
        exact ⟨⟨by decide, by decide⟩, by unfold IsBlank; decide, by decide, by decide, by decide,
          by unfold IsBlank; decide⟩
      · exact ⟨_, List.mem_singleton_self _, by decide +kernel, "a", ⟨by decide, by decide⟩,
          by decide⟩
  · decide +kernel
  · decide +kernel
  · rintro ⟨n, -, hdigits, -⟩
    exact absurd (hdigits 'a' (by decide)) (by decide)
  · exact eq_nil_of_length_eq_zero (by decide +kernel)

end Velocious
