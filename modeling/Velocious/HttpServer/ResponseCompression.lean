/-
  Compressing a response (src/http-server/client/response-compression.js).

  * A quality is a number of thousandths; the headers of the request are the function `header`, those
    of the response a list of keys with their values.
  * `weight`: the quality of a coding under RFC 9110, whose qvalues are a grammar of their own here;
    a text outside of it makes a coding unacceptable, and of two elements for one coding the last
    counts. `readWeight` is the code's reading, and the two differ at the qvalue `1.`.
  * `negotiateContentEncoding_spec`: what is negotiated has the highest quality that is read.
-/
import Mathlib.Data.List.DropRight
import Velocious.HttpServer.RequestBuffer

namespace Velocious.ResponseCompression

open Foundation List

/-! ## Accept-Encoding -/

/-- The codings the server has. -/
inductive Coding where
  | br
  | gzip
  | identity
  deriving DecidableEq, Repr

def Coding.name : Coding → String
  | br => "br"
  | gzip => "gzip"
  | identity => "identity"

def split (separator : Char) (s : String) : List String :=
  (s.toList.splitOn separator).map String.ofList

/-- The thousandths of a text that matches `QVALUE_PATTERN`. -/
def qvalue? (s : String) : Option ℕ :=
  match s.toList with
  | ['0'] => some 0
  | ['1'] => some 1000
  | '0' :: '.' :: digits =>
    if digits.length ∈ [1, 2, 3] ∧ digits.all Char.isDigit then
      some <| (digits ++ replicate (3 - digits.length) '0').foldl
        (fun n digit => 10 * n + (digit.toNat - 48)) 0
    else none
  | '1' :: '.' :: zeros =>
    if zeros.length ∈ [1, 2, 3] ∧ zeros.all (· = '0') then some 1000 else none
  | _ => none

/-- The quality that the parameters of a coding give: a malformed one is 0. -/
def quality (parameters : List String) : ℕ :=
  parameters.foldl (fun q parameter =>
    match split '=' parameter with
    | name :: value =>
      if toLowerCase (trim name) ≠ "q" then q else (qvalue? (trim (value.headD ""))).getD 0
    | [] => q) 1000

/-- The coding of one part of the header, unless it is blank, and its quality. -/
def codingOf (part : String) : Option (String × ℕ) :=
  match split ';' part with
  | codingToken :: parameters =>
    if toLowerCase (trim codingToken) = "" then none
    else some (toLowerCase (trim codingToken), quality parameters)
  | [] => none

def parseAcceptEncoding (headerValue : String) : String → Option ℕ :=
  (split ',' headerValue).foldl (fun codings part =>
    match codingOf part with
    | some (coding, q) => Function.update codings coding (some q)
    | none => codings) fun _ => none

/-- What is negotiated. -/
structure Negotiated where
  encoding : Coding
  identityAcceptable : Bool

/-- `none` where nothing is acceptable. -/
def negotiateContentEncoding (acceptEncoding : Option String) : Option Negotiated :=
  if acceptEncoding.all fun value => trim value = "" then some ⟨.identity, true⟩
  else
    let codings := parseAcceptEncoding (acceptEncoding.getD "")
    let wildcardQ := codings "*"
    let identityQ := ((codings "identity").or wildcardQ).getD 1000
    let candidates := [(Coding.br, ((codings "br").or wildcardQ).getD 0),
      (.gzip, ((codings "gzip").or wildcardQ).getD 0), (.identity, identityQ)]
    ((candidates.filter fun candidate => 0 < candidate.2).mergeSort
      fun a b => b.2 ≤ a.2).head?.map fun selected => ⟨selected.1, 0 < identityQ⟩

/-! ## Responses -/

/-- `response.headers` -/
abbrev Headers := List (String × List String)

def getHeader (headers : Headers) (key : String) : List String :=
  headers.flatMap fun (headerKey, values) =>
    if toLowerCase headerKey = toLowerCase key then values else []

def setHeader (headers : Headers) (key value : String) : Headers :=
  if headers.any (·.1 = key) then
    headers.map fun header => if header.1 = key then (key, [value]) else header
  else headers ++ [(key, [value])]

def tokens (values : List String) : List String :=
  values.flatMap fun value => (split ',' value).map fun token => toLowerCase (trim token)

def isCompressibleContentType (contentType : String) : Bool :=
  let mediaType := toLowerCase (trim ((split ';' contentType).headD ""))
  let endsWith (suffix : String) := suffix.toList.isSuffixOf mediaType.toList
  mediaType ≠ "" && mediaType ≠ "text/event-stream" && (startsWith mediaType "text/" ||
    endsWith "+json" || endsWith "+xml" || ["application/ecmascript", "application/javascript",
      "application/json", "application/x-javascript", "application/xml",
      "image/svg+xml"].contains mediaType)

/-- The values of a `Vary` let a cache know of `Accept-Encoding`. -/
def covers (values : List String) : Bool :=
  (tokens values).contains "*" || (tokens values).contains "accept-encoding"

/-- The headers with the first `Vary` extended, if there is one. -/
def extendVary : Headers → Option Headers
  | [] => none
  | (headerKey, values) :: headers =>
    if toLowerCase headerKey ≠ "vary" then (extendVary headers).map ((headerKey, values) :: ·)
    else if covers values then some ((headerKey, values) :: headers)
    else
      match values with
      | [] => some ((headerKey, []) :: headers)
      | value :: others => some ((headerKey, (value ++ ", Accept-Encoding") :: others) :: headers)

def addAcceptEncodingToVary (headers : Headers) : Headers :=
  (extendVary headers).getD (setHeader headers "Vary" "Accept-Encoding")

/-- What is read of a response. -/
structure Response where
  statusCode : ℕ
  compressionDisabled : Bool
  headers : Headers

/-- A response that may be sent compressed. -/
def transformable (header : String → Option String) (response : Response) : Bool :=
  let absent (key : String) := (getHeader response.headers key).isEmpty
  !response.compressionDisabled && response.statusCode ≠ 206 &&
    (orNull (header "range")).isNone && (orNull (header "authorization")).isNone &&
    (orNull (header "cookie")).isNone && absent "Content-Range" && absent "Set-Cookie" &&
    absent "ETag" && absent "Digest" && absent "Content-Digest" &&
    !(tokens (getHeader response.headers "Cache-Control")).contains "no-transform" &&
    (getHeader response.headers "Content-Type").head?.any isCompressibleContentType

/-- How the body is sent. -/
inductive Outcome where
  | identity
  | compressed (encoding : Coding) (body : List UInt8)
  | notAcceptable

/-- The configuration. -/
structure Compression where
  enabled : Bool
  threshold : ℕ
  compress : Coding → List UInt8 → List UInt8

def applyResponseCompression (compression : Compression) (header : String → Option String)
    (response : Response) (bodyBuffer : List UInt8) : Outcome × Headers :=
  if !compression.enabled then (.identity, response.headers)
  else if getHeader response.headers "Content-Encoding" ≠ [] then (.identity, response.headers)
  else
    match negotiateContentEncoding (header "accept-encoding") with
    | none => (.notAcceptable, response.headers)
    | some negotiated =>
      if !transformable header response then
        (if negotiated.identityAcceptable then .identity else .notAcceptable, response.headers)
      else
        let headers := addAcceptEncodingToVary response.headers
        if negotiated.encoding = .identity then (.identity, headers)
        else if bodyBuffer.length < compression.threshold ∧ negotiated.identityAcceptable then
          (.identity, headers)
        else (.compressed negotiated.encoding (compression.compress negotiated.encoding bodyBuffer),
          setHeader headers "Content-Encoding" negotiated.encoding.name)

/-! ## What the client accepts -/

/-- The digits after a qvalue's point, if there is one: at most three. -/
def fraction? : List Char → Option (List Char)
  | [] => some []
  | '.' :: digits => if digits.length ≤ 3 ∧ digits.all Char.isDigit then some digits else none
  | _ => none

/-- The thousandths of a qvalue by the grammar of RFC 9110, 12.4.2:
    `( "0" [ "." 0*3DIGIT ] ) / ( "1" [ "." 0*3("0") ] )`. -/
def rfcQvalue? (s : String) : Option ℕ :=
  match s.toList with
  | '0' :: rest => (fraction? rest).map fun digits =>
    (digits ++ replicate (3 - digits.length) '0').foldl
      (fun n digit => 10 * n + (digit.toNat - 48)) 0
  | '1' :: rest => ((fraction? rest).filter (·.all (· = '0'))).map fun _ => 1000
  | _ => none

/-- The text of a parameter `q`. -/
def qText? (parameter : String) : Option String :=
  match split '=' parameter with
  | name :: value => if toLowerCase (trim name) = "q" then some (trim (value.headD "")) else none
  | [] => none

/-- One element of the header: its coding, and the text of its last `q`, if it has one. -/
def element? (part : String) : Option (String × Option String) :=
  match split ';' part with
  | coding :: parameters =>
    if toLowerCase (trim coding) = "" then none
    else some (toLowerCase (trim coding), (parameters.filterMap qText?).getLast?)
  | [] => none

/-- The elements of the header. -/
def listed (acceptEncoding : Option String) : List (String × Option String) :=
  (split ',' (acceptEncoding.getD "")).filterMap element?

/-- The last element that names a coding, with the text of its quality. -/
def lastOf (acceptEncoding : Option String) (name : String) : Option (Option String) :=
  ((listed acceptEncoding).reverse.find? (·.1 = name)).map Prod.snd

/-- The element that decides about a coding: its own, or that of `*`. -/
def deciding (acceptEncoding : Option String) (coding : Coding) : Option (Option String) :=
  (lastOf acceptEncoding coding.name).or (lastOf acceptEncoding "*")

/-- The quality that an element gives: 1 without a `q`, and 0 where its text is malformed. -/
def elementQuality (qvalue : String → Option ℕ) (text : Option String) : ℕ :=
  (text.map fun text => (qvalue text).getD 0).getD 1000

/-- The quality of a coding, its qvalues read by `qvalue`. -/
def weightBy (qvalue : String → Option ℕ) (acceptEncoding : Option String) (coding : Coding) : ℕ :=
  ((deciding acceptEncoding coding).map (elementQuality qvalue)).getD
    (if coding = .identity then 1000 else 0)

/-- The quality of a coding under RFC 9110. -/
abbrev weight := weightBy rfcQvalue?

/-- The outcome is one that the client accepts, and the best; the response varies by it. -/
structure Respects (header : String → Option String) (response : Response)
    (result : Outcome × Headers) : Prop where
  identity : result.1 = .identity → 0 < weight (header "accept-encoding") .identity
  compressed : ∀ coding body, result.1 = .compressed coding body →
    transformable header response = true ∧ 0 < weight (header "accept-encoding") coding ∧
      ∀ other, weight (header "accept-encoding") other ≤ weight (header "accept-encoding") coding
  /-- nothing that may be sent is acceptable -/
  notAcceptable : result.1 = .notAcceptable → ∀ coding,
    coding = .identity ∨ transformable header response = true →
      weight (header "accept-encoding") coding = 0
  vary : transformable header response = true → covers (getHeader result.2 "Vary") = true

/-- The quality of a coding as the code reads it. -/
abbrev readWeight := weightBy qvalue?

/-- What is sent is right whatever the client says of the other codings: a coding of quality 1 may
    be sent, or identity is acceptable and goes out in any case. -/
def Settled (header : String → Option String) (response : Response) (compression : Compression)
    (bodyBuffer : List UInt8) : Prop :=
  (transformable header response = true ∧
    ∃ coding, 1000 ≤ readWeight (header "accept-encoding") coding) ∨
  (0 < readWeight (header "accept-encoding") .identity ∧
    (bodyBuffer.length < compression.threshold ∨ ∀ coding, coding ≠ .identity →
      readWeight (header "accept-encoding") coding <
        readWeight (header "accept-encoding") .identity))

/-- The code takes the qvalue `1.` of a coding that may be sent for 0, and it matters. -/
structure Misread (header : String → Option String) (response : Response)
    (compression : Compression) (bodyBuffer : List UInt8) : Prop where
  read : ∃ coding, (coding = .identity ∨ transformable header response = true) ∧
    deciding (header "accept-encoding") coding = some (some "1.")
  unsettled : ¬ Settled header response compression bodyBuffer

/-- The first `Vary`, if there is one, has a value. -/
def Extensible (headers : Headers) : Prop :=
  ∀ first, headers.find? (toLowerCase ·.1 = "vary") = some first → first.2 ≠ []

variable {acceptEncoding : Option String} {headers : Headers}

theorem length_mem_iff (c : Char) (cs : List Char) :
    (c :: cs).length ∈ [1, 2, 3] ↔ (c :: cs).length ≤ 3 := by
  rw [length_cons]
  generalize cs.length = n
  simp
  omega

/-- The code reads a qvalue by the grammar, but for `1.`. -/
theorem rfcQvalue?_eq {s : String} (h : s ≠ "1.") :
    (rfcQvalue? s).getD 0 = (qvalue? s).getD 0 := by
  have hpoint : s.toList ≠ ['1', '.'] := fun heq => h (String.toList_injective heq)
  unfold rfcQvalue? qvalue?
  generalize s.toList = cs at hpoint
  rcases cs with _ | ⟨c, rest⟩
  · rfl
  by_cases hzero : c = '0'
  · subst hzero
    rcases rest with _ | ⟨point, _ | ⟨digit, digits⟩⟩
    · rfl
    · by_cases hdot : point = '.' <;> simp [fraction?, hdot]
    · by_cases hdot : point = '.'
      · subst hdot
        simp only [fraction?, length_mem_iff]
        split <;> rfl
      · simp [fraction?, hdot]
  by_cases hone : c = '1'
  · subst hone
    rcases rest with _ | ⟨point, _ | ⟨zero, zeros⟩⟩
    · rfl
    · have hdot : point ≠ '.' := fun heq => hpoint (heq ▸ rfl)
      simp [fraction?, hdot]
    · by_cases hdot : point = '.'
      · subst hdot
        simp only [fraction?, length_mem_iff]
        by_cases hzeros : (zero :: zeros).all (· = '0') = true
        · have hdigits : (zero :: zeros).all Char.isDigit = true := by
            simp only [all_eq_true, decide_eq_true_eq] at hzeros ⊢
            exact fun c hc => hzeros c hc ▸ rfl
          simp only [hzeros, hdigits, and_true]
          split
          · simp [Option.filter, hzeros]
          · rfl
        · rw [if_neg (c := _ ∧ (zero :: zeros).all (· = '0') = true) fun h => hzeros h.2]
          split
          · rw [Option.filter, if_neg hzeros]
            rfl
          · rfl
      · simp [fraction?, hdot]
  · simp [hzero, hone]

theorem quality_step (q : ℕ) (parameter : String) :
    (match split '=' parameter with
      | name :: value =>
        if toLowerCase (trim name) ≠ "q" then q else (qvalue? (trim (value.headD ""))).getD 0
      | [] => q) = ((qText? parameter).map fun text => (qvalue? text).getD 0).getD q := by
  unfold qText?
  split
  · next name value _ =>
    by_cases hname : toLowerCase (trim name) = "q"
    · rw [if_neg (not_not.mpr hname), if_pos hname]
      rfl
    · rw [if_pos hname, if_neg hname]
      rfl
  · rfl

theorem quality_eq (parameters : List String) :
    quality parameters = elementQuality qvalue? (parameters.filterMap qText?).getLast? := by
  unfold quality
  simp only [quality_step]
  induction parameters using reverseRecOn with
  | nil => rfl
  | append_singleton parameters parameter ih =>
    rw [foldl_append, foldl_cons, foldl_nil, ih, filterMap_append]
    cases hparameter : qText? parameter with
    | none => simp [hparameter]
    | some text => simp [hparameter, elementQuality]

theorem codingOf_eq (part : String) :
    codingOf part = (element? part).map fun e => (e.1, elementQuality qvalue? e.2) := by
  unfold codingOf element?
  split
  · split
    · rfl
    · simp [quality_eq]
  · rfl

theorem parseAcceptEncoding_eq (name : String) :
    parseAcceptEncoding (acceptEncoding.getD "") name =
      (lastOf acceptEncoding name).map (elementQuality qvalue?) := by
  unfold parseAcceptEncoding lastOf listed
  induction split ',' (acceptEncoding.getD "") using reverseRecOn with
  | nil => rfl
  | append_singleton parts part ih =>
    rw [foldl_append, foldl_cons, foldl_nil, filterMap_append, codingOf_eq]
    cases hpart : element? part with
    | none => simpa [hpart] using ih
    | some element =>
      by_cases hname : element.1 = name
      · simp [hpart, ← hname]
      · simpa [hpart, hname, Function.update_of_ne (Ne.symm hname)] using ih

theorem listed_blank (h : trim (acceptEncoding.getD "") = "") : listed acceptEncoding = [] := by
  have hspace : ∀ c ∈ (acceptEncoding.getD "").toList, isJsSpace c = true := by
    rw [trim, String.ofList_eq_empty_iff, reverse_eq_nil_iff, dropWhile_eq_nil_iff] at h
    simp only [mem_reverse] at h
    rwa [← dropWhile_eq_nil_iff, dropWhile_idempotent, dropWhile_eq_nil_iff] at h
  have hnone : ∀ separator, isJsSpace separator = false →
      split separator (acceptEncoding.getD "") = [acceptEncoding.getD ""] := by
    intro separator hseparator
    rw [split, splitOn_eq_singleton]
    · simp
    · intro hmem
      cases hseparator.symm.trans (hspace _ hmem)
  simp [listed, hnone ',' (by decide), element?, hnone ';' (by decide), h, toLowerCase]

/-- The candidates of a quality above 0, as they are sorted. -/
def ranked (acceptEncoding : Option String) : List (Coding × ℕ) :=
  (([Coding.br, .gzip, .identity].map fun c => (c, readWeight acceptEncoding c)).filter
    fun candidate => 0 < candidate.2).mergeSort fun a b => b.2 ≤ a.2

section
variable {coding : Coding} {q : ℕ}

theorem mem_ranked :
    (coding, q) ∈ ranked acceptEncoding ↔ q = readWeight acceptEncoding coding ∧ 0 < q := by
  rw [ranked, mem_mergeSort, mem_filter, decide_eq_true_eq, mem_map]
  constructor
  · rintro ⟨⟨c, -, heq⟩, hpos⟩
    cases heq
    exact ⟨rfl, hpos⟩
  · rintro ⟨rfl, hpos⟩
    exact ⟨⟨coding, by cases coding <;> decide, rfl⟩, hpos⟩

theorem rank_trans (a b c : Coding × ℕ) (hab : decide (b.2 ≤ a.2) = true)
    (hbc : decide (c.2 ≤ b.2) = true) : decide (c.2 ≤ a.2) = true := by
  simp only [decide_eq_true_eq] at hab hbc ⊢
  exact hbc.trans hab

theorem rank_total (a b : Coding × ℕ) : (decide (b.2 ≤ a.2) || decide (a.2 ≤ b.2)) = true := by
  simp only [Bool.or_eq_true, decide_eq_true_eq]
  exact le_total b.2 a.2

theorem ranked_pairwise : (ranked acceptEncoding).Pairwise fun a b => b.2 ≤ a.2 :=
  (pairwise_mergeSort rank_trans rank_total _).imp of_decide_eq_true

theorem nodup_ranked : (ranked acceptEncoding).Nodup := by
  have hnodup : ([Coding.br, .gzip, .identity].map fun c =>
      (c, readWeight acceptEncoding c)).Nodup :=
    Nodup.map (fun c d heq => congrArg Prod.fst heq) (by decide)
  exact (mergeSort_perm _ _).nodup_iff.mpr (hnodup.filter _)

/-- The sort is stable: a coding of identity's quality stands before identity. -/
theorem ranked_before_identity (hcoding : coding ≠ .identity)
    (hpos : 0 < readWeight acceptEncoding .identity)
    (heq : readWeight acceptEncoding coding = readWeight acceptEncoding .identity) :
    [(coding, readWeight acceptEncoding coding),
      (Coding.identity, readWeight acceptEncoding .identity)] <+ ranked acceptEncoding := by
  refine pair_sublist_mergeSort rank_trans rank_total (decide_eq_true heq.ge) ?_
  have hpair : [coding, .identity] <+ [Coding.br, .gzip, .identity] := by
    cases coding
    · decide
    · decide
    · exact absurd rfl hcoding
  have hfiltered := (hpair.map fun c => (c, readWeight acceptEncoding c)).filter
    fun candidate : Coding × ℕ => decide (0 < candidate.2)
  rwa [filter_eq_self.mpr (by simp [heq, hpos])] at hfiltered

end

/-- What is negotiated has the highest quality that is read, and identity is the last choice. -/
theorem negotiateContentEncoding_spec :
    (negotiateContentEncoding acceptEncoding = none →
      ∀ coding, readWeight acceptEncoding coding = 0) ∧
    ∀ negotiated, negotiateContentEncoding acceptEncoding = some negotiated →
      0 < readWeight acceptEncoding negotiated.encoding ∧
      (∀ coding, readWeight acceptEncoding coding ≤
        readWeight acceptEncoding negotiated.encoding) ∧
      (negotiated.encoding = .identity → ∀ coding, coding ≠ .identity →
        readWeight acceptEncoding coding < readWeight acceptEncoding .identity) ∧
      (negotiated.identityAcceptable = true ↔ 0 < readWeight acceptEncoding .identity) := by
  unfold negotiateContentEncoding
  split
  · next hblank =>
    have hlisted : listed acceptEncoding = [] := by
      cases acceptEncoding with
      | none => rfl
      | some value => exact listed_blank (by simpa using hblank)
    have hweight : ∀ coding, readWeight acceptEncoding coding =
        if coding = .identity then 1000 else 0 := by
      intro coding
      simp [weightBy, deciding, lastOf, hlisted]
    refine ⟨nofun, fun negotiated h => ?_⟩
    cases h
    simp only [hweight]
    refine ⟨by decide, fun coding => ?_, fun _ coding hcoding => ?_, by decide⟩
    · split <;> decide
    · rw [if_neg hcoding]
      decide
  · have hread : ∀ coding default, default = (if coding = Coding.identity then 1000 else 0) →
        ((parseAcceptEncoding (acceptEncoding.getD "") coding.name).or
          (parseAcceptEncoding (acceptEncoding.getD "") "*")).getD default =
          readWeight acceptEncoding coding := by
      rintro coding default rfl
      simp only [parseAcceptEncoding_eq, weightBy, deciding, Option.map_or]
    have hbr := hread .br 0 rfl
    have hgzip := hread .gzip 0 rfl
    have hidentity := hread .identity 1000 rfl
    simp only [Coding.name] at hbr hgzip hidentity
    simp only [hbr, hgzip, hidentity]
    change ((ranked acceptEncoding).head?.map _ = none → _) ∧ ∀ negotiated,
      (ranked acceptEncoding).head?.map _ = some negotiated → _
    have hsorted := @ranked_pairwise acceptEncoding
    have hnodup := @nodup_ranked acceptEncoding
    have hbefore := @ranked_before_identity acceptEncoding
    have hmem := @mem_ranked acceptEncoding
    cases hranked : ranked acceptEncoding with
    | nil =>
      refine ⟨fun _ coding => ?_, nofun⟩
      by_contra hne
      have hfound := hmem.mpr ⟨rfl, Nat.pos_of_ne_zero hne⟩
      rw [hranked] at hfound
      cases hfound
    | cons selected others =>
      rw [hranked] at hsorted hnodup hbefore hmem
      obtain ⟨hq, hpos⟩ := (@hmem selected.1 selected.2).mp mem_cons_self
      have hmax : ∀ coding, readWeight acceptEncoding coding ≤
          readWeight acceptEncoding selected.1 := by
        intro coding
        by_cases hzero : readWeight acceptEncoding coding = 0
        · exact hzero.le.trans (Nat.zero_le _)
        · have hfound := hmem.mpr ⟨rfl, Nat.pos_of_ne_zero hzero⟩
          rcases mem_cons.mp hfound with rfl | hother
          · exact hq.le
          · exact hq ▸ (pairwise_cons.mp hsorted).1 _ hother
      refine ⟨nofun, fun negotiated h => ?_⟩
      cases h
      refine ⟨hq ▸ hpos, hmax, fun hselected coding hcoding => ?_, by simp⟩
      rw [show selected.1 = Coding.identity from hselected] at hq hmax
      refine lt_of_le_of_ne (hmax coding) fun heq => ?_
      have hpair := hbefore hcoding (hq ▸ hpos) heq
      rw [show selected = (Coding.identity, readWeight acceptEncoding .identity) from
        Prod.ext hselected hq] at hpair hnodup
      rcases sublist_cons_iff.mp hpair with hpair | ⟨rest, heq, -⟩
      · exact (nodup_cons.mp hnodup).1 (hpair.subset (mem_cons_of_mem _ mem_cons_self))
      · cases heq
        exact hcoding rfl

/-! ## The response varies -/

theorem covers_append (values others : List String) :
    covers (values ++ others) = (covers values || covers others) := by
  simp only [covers, tokens, flatMap_append, contains_eq_mem, mem_append, Bool.decide_or]
  ac_rfl

theorem covers_extended (value : String) (others : List String) :
    covers ((value ++ ", Accept-Encoding") :: others) = true := by
  have hsplit : split ',' (value ++ ", Accept-Encoding") =
      split ',' value ++ [" Accept-Encoding"] := by
    have htoList : (value ++ ", Accept-Encoding").toList =
        value.toList ++ ',' :: " Accept-Encoding".toList := by
      rw [String.toList_append]
      rfl
    rw [split, htoList, splitOn_append_cons_self, map_append]
    rfl
  have hlast : "accept-encoding" ∈ tokens ((value ++ ", Accept-Encoding") :: others) := by
    rw [tokens, flatMap_cons, hsplit, map_append]
    exact mem_append_left _ (mem_append_right _ (mem_singleton.mpr (by decide)))
  simp [covers, hlast]

theorem getHeader_append (headers others : Headers) (key : String) :
    getHeader (headers ++ others) key = getHeader headers key ++ getHeader others key := by
  simp [getHeader]

theorem extendVary_cases (headers : Headers) :
    (extendVary headers = none ∧ ∀ header ∈ headers, toLowerCase header.1 ≠ "vary") ∨
    ∃ headers', extendVary headers = some headers' ∧
      (covers (getHeader headers' "Vary") = true ↔
        covers (getHeader headers "Vary") = true ∨ Extensible headers) := by
  have hlower : toLowerCase "Vary" = "vary" := by decide
  induction headers with
  | nil => exact .inl ⟨rfl, nofun⟩
  | cons first headers ih =>
    obtain ⟨headerKey, values⟩ := first
    by_cases hkey : toLowerCase headerKey = "vary"
    · have hextensible : Extensible ((headerKey, values) :: headers) ↔ values ≠ [] := by
        simp [Extensible, hkey]
      have hvalues : ∀ values : List String, getHeader ((headerKey, values) :: headers) "Vary" =
          values ++ getHeader headers "Vary" := by
        intro values
        simp [getHeader, hkey, hlower]
      unfold extendVary
      rw [if_neg (not_not.mpr hkey), hextensible]
      refine .inr ?_
      split
      · next hcovers => exact ⟨_, rfl, by simp [hvalues, covers_append, hcovers]⟩
      · cases values with
        | nil => exact ⟨_, rfl, by simp⟩
        | cons value others =>
          exact ⟨_, rfl, by rw [hvalues, covers_append, covers_extended]; simp⟩
    · have hextensible : Extensible ((headerKey, values) :: headers) ↔ Extensible headers := by
        simp [Extensible, hkey]
      have hvalues : ∀ headers : Headers, getHeader ((headerKey, values) :: headers) "Vary" =
          getHeader headers "Vary" := by
        intro headers
        simp [getHeader, hkey, hlower]
      unfold extendVary
      rw [if_pos hkey, hextensible, hvalues]
      rcases ih with ⟨hnone, hvary⟩ | ⟨headers', hsome, hcovers⟩
      · exact .inl ⟨by rw [hnone]; rfl, forall_mem_cons.mpr ⟨hkey, hvary⟩⟩
      · exact .inr ⟨_, by rw [hsome]; rfl, by rw [hvalues, hcovers]⟩

theorem covers_addAcceptEncodingToVary (headers : Headers) :
    covers (getHeader (addAcceptEncodingToVary headers) "Vary") = true ↔
      covers (getHeader headers "Vary") = true ∨ Extensible headers := by
  rcases extendVary_cases headers with ⟨hnone, hvary⟩ | ⟨headers', hsome, hcovers⟩
  · have hkey : headers.any (·.1 = "Vary") = false := by
      simp only [any_eq_false, decide_eq_true_eq]
      rintro header hmem heq
      exact hvary header hmem (heq ▸ by decide)
    have hextensible : Extensible headers := fun first hfirst =>
      absurd (by simpa using find?_some hfirst) (hvary first (mem_of_find?_eq_some hfirst))
    rw [addAcceptEncodingToVary, hnone, Option.getD_none, setHeader, hkey, if_neg nofun,
      getHeader_append, covers_append]
    simp only [hextensible, or_true, iff_true, Bool.or_eq_true]
    exact .inr (by decide)
  · rw [addAcceptEncodingToVary, hsome]
    exact hcovers

theorem getHeader_setHeader (headers : Headers) (value : String) :
    getHeader (setHeader headers "Content-Encoding" value) "Vary" = getHeader headers "Vary" := by
  have hkey : toLowerCase "Content-Encoding" ≠ toLowerCase "Vary" := by decide
  unfold setHeader
  split
  · rw [getHeader, flatMap_map]
    refine flatMap_congr fun ⟨headerKey, values⟩ _ => ?_
    by_cases heq : headerKey = "Content-Encoding"
    · simp [heq, hkey]
    · simp [heq]
  · simp [getHeader, hkey]

/-! ## The outcome -/

/-- RFC 9110 gives a coding another quality than the code only where its qvalue is `1.`. -/
theorem weight_eq (coding : Coding) :
    weight acceptEncoding coding =
      if deciding acceptEncoding coding = some (some "1.") then 1000
      else readWeight acceptEncoding coding := by
  unfold weight readWeight weightBy
  cases hdeciding : deciding acceptEncoding coding with
  | none => rfl
  | some text =>
    cases text with
    | none => rfl
    | some text =>
      by_cases hpoint : text = "1."
      · subst hpoint
        rfl
      · simp [elementQuality, hpoint, rfcQvalue?_eq hpoint]

theorem readWeight_eq_zero {coding : Coding}
    (h : deciding acceptEncoding coding = some (some "1.")) :
    readWeight acceptEncoding coding = 0 := by
  unfold readWeight weightBy
  rw [h]
  rfl

theorem weight_of_pos {coding : Coding} (h : 0 < readWeight acceptEncoding coding) :
    weight acceptEncoding coding = readWeight acceptEncoding coding := by
  rw [weight_eq, if_neg fun hpoint => h.ne' (readWeight_eq_zero hpoint)]

theorem weight_eq_zero_iff {coding : Coding} (h : readWeight acceptEncoding coding = 0) :
    weight acceptEncoding coding = 0 ↔ deciding acceptEncoding coding ≠ some (some "1.") := by
  rw [weight_eq]
  split
  · next hpoint => simp [hpoint]
  · next hpoint => simp [hpoint, h]

/-- The best quality that is read is the best one, unless a qvalue `1.` is above it. -/
theorem weight_le_iff {coding : Coding} (hpos : 0 < readWeight acceptEncoding coding)
    (hmax : ∀ other, readWeight acceptEncoding other ≤ readWeight acceptEncoding coding) :
    (∀ other, weight acceptEncoding other ≤ weight acceptEncoding coding) ↔
      ((∃ other, deciding acceptEncoding other = some (some "1.")) →
        1000 ≤ readWeight acceptEncoding coding) := by
  rw [weight_of_pos hpos]
  constructor
  · rintro hle ⟨other, hpoint⟩
    have hother := hle other
    rwa [weight_eq, if_pos hpoint] at hother
  · intro h other
    rw [weight_eq]
    split
    · next hpoint => exact h ⟨other, hpoint⟩
    · exact hmax other

variable {compression : Compression} {header : String → Option String} {response : Response}

/-- **The outcome respects Accept-Encoding.** It is acceptable and the best, unless a qvalue `1.` is
    misread; a response that may be compressed varies by the header iff it did before, or something
    is acceptable and its first `Vary` has a value. -/
theorem respects_iff (henabled : compression.enabled = true)
    (hown : getHeader response.headers "Content-Encoding" = []) (bodyBuffer : List UInt8) :
    Respects header response (applyResponseCompression compression header response bodyBuffer) ↔
      (transformable header response = true → covers (getHeader response.headers "Vary") = true ∨
        (∃ coding, 0 < readWeight (header "accept-encoding") coding) ∧
          Extensible response.headers) ∧
      ¬ Misread header response compression bodyBuffer := by
  obtain ⟨hrefused, hbest⟩ := @negotiateContentEncoding_spec (header "accept-encoding")
  have hvary := covers_addAcceptEncodingToVary response.headers
  unfold applyResponseCompression
  simp only [henabled, hown, Bool.not_true, ne_eq, not_true_eq_false]
  cases hnegotiated : negotiateContentEncoding (header "accept-encoding") with
  | none =>
    have hzero := hrefused hnegotiated
    have hunsettled : ¬ Settled header response compression bodyBuffer := by
      simp [Settled, hzero]
    constructor
    · refine fun h => ⟨fun ht => .inl (h.vary ht), fun ⟨⟨coding, hsent, hpoint⟩, _⟩ => ?_⟩
      exact (weight_eq_zero_iff (hzero coding)).mp (h.notAcceptable rfl coding hsent) hpoint
    · refine fun ⟨hcovers, hread⟩ => ⟨nofun, nofun, fun _ coding hsent => ?_, fun ht => ?_⟩
      · exact (weight_eq_zero_iff (hzero coding)).mpr fun hpoint =>
          hread ⟨⟨coding, hsent, hpoint⟩, hunsettled⟩
      · refine (hcovers ht).resolve_right ?_
        rintro ⟨⟨coding, hpos⟩, -⟩
        exact hpos.ne' (hzero coding)
  | some negotiated =>
    obtain ⟨hpos, hmax, hlast, hidentity⟩ := hbest negotiated hnegotiated
    have hacceptable : ∃ coding, 0 < readWeight (header "accept-encoding") coding := ⟨_, hpos⟩
    simp only [hacceptable, true_and]
    by_cases ht : transformable header response = true
    · simp only [ht, Bool.not_true, Bool.false_eq_true, if_false, true_imp_iff]
      rw [← hvary]
      split
      · next hchosen =>
        rw [hchosen] at hpos
        have hsettled : Settled header response compression bodyBuffer :=
          .inr ⟨hpos, .inr (hlast hchosen)⟩
        exact ⟨fun h => ⟨h.vary ht, fun hmisread => hmisread.unsettled hsettled⟩, fun h =>
          ⟨fun _ => (weight_of_pos hpos).symm ▸ hpos, nofun, nofun, fun _ => h.1⟩⟩
      · next hchosen =>
        split
        · next hsmall =>
          have haccepts := hidentity.mp hsmall.2
          have hsettled : Settled header response compression bodyBuffer :=
            .inr ⟨haccepts, .inl hsmall.1⟩
          exact ⟨fun h => ⟨h.vary ht, fun hmisread => hmisread.unsettled hsettled⟩, fun h =>
            ⟨fun _ => (weight_of_pos haccepts).symm ▸ haccepts, nofun, nofun, fun _ => h.1⟩⟩
        · next hlarge =>
          have hbetter := weight_le_iff hpos hmax
          -- identity is not sent, so only the chosen coding's quality can settle it
          have hsettled : Settled header response compression bodyBuffer ↔
              1000 ≤ readWeight (header "accept-encoding") negotiated.encoding := by
            constructor
            · rintro (⟨-, coding, hone⟩ | ⟨haccepts, hsmall | hfirst⟩)
              · exact hone.trans (hmax coding)
              · exact absurd ⟨hsmall, hidentity.mpr haccepts⟩ hlarge
              · exact absurd (hfirst _ hchosen) (hmax .identity).not_gt
            · exact fun hone => .inl ⟨ht, _, hone⟩
          rw [← getHeader_setHeader]
          constructor
          · refine fun h => ⟨h.vary ht, fun hmisread => hmisread.unsettled (hsettled.mpr ?_)⟩
            obtain ⟨coding, -, hpoint⟩ := hmisread.read
            exact hbetter.mp (h.compressed _ _ rfl).2.2 ⟨coding, hpoint⟩
          · refine fun h => ⟨nofun, fun coding body heq => ?_, nofun, fun _ => h.1⟩
            cases heq
            refine ⟨ht, (weight_of_pos hpos).symm ▸ hpos, hbetter.mpr fun ⟨coding, hpoint⟩ => ?_⟩
            by_contra hlow
            exact h.2 ⟨⟨coding, .inr ht, hpoint⟩, fun hs => hlow (hsettled.mp hs)⟩
    · have hsent : ∀ coding, coding = Coding.identity ∨ transformable header response = true →
          coding = Coding.identity := fun coding h => h.resolve_right ht
      rw [Bool.not_eq_true] at ht
      simp only [ht, Bool.not_false, if_true, if_false, Bool.false_eq_true, false_imp_iff, true_and]
      split
      · next haccepts =>
        have hpos := hidentity.mp haccepts
        refine ⟨fun _ ⟨⟨coding, hcoding, hpoint⟩, _⟩ => ?_, fun _ =>
          ⟨fun _ => (weight_of_pos hpos).symm ▸ hpos, nofun, nofun,
            fun h => absurd (ht.symm.trans h) nofun⟩⟩
        exact hpos.ne' (readWeight_eq_zero (hsent coding hcoding ▸ hpoint))
      · next hrejects =>
        have hzero : readWeight (header "accept-encoding") .identity = 0 :=
          Nat.eq_zero_of_not_pos fun h => hrejects (hidentity.mpr h)
        have hunsettled : ¬ Settled header response compression bodyBuffer := by
          simp [Settled, ht, hzero]
        constructor
        · refine fun h ⟨⟨coding, hcoding, hpoint⟩, _⟩ => ?_
          exact (weight_eq_zero_iff hzero).mp (h.notAcceptable rfl _ (.inl rfl))
            (hsent coding hcoding ▸ hpoint)
        · refine fun h => ⟨nofun, nofun, fun _ coding hcoding => ?_,
            fun h => absurd (ht.symm.trans h) nofun⟩
          rw [hsent coding hcoding]
          exact (weight_eq_zero_iff hzero).mpr fun hpoint =>
            h ⟨⟨.identity, .inl rfl, hpoint⟩, hunsettled⟩

def plainText : Response := ⟨200, false, [("Content-Type", ["text/plain"])]⟩

def compressionOn : Compression := ⟨true, 0, fun _ body => body⟩

theorem respects_plainText : Respects (fun _ => none) plainText
    (applyResponseCompression compressionOn (fun _ => none) plainText [65]) :=
  (respects_iff rfl rfl [65]).mpr ⟨fun _ => .inr ⟨⟨.identity, by decide⟩, nofun⟩, fun h => by
    obtain ⟨coding, -, hpoint⟩ := h.read
    cases coding <;> revert hpoint <;> decide⟩

/-- A request with this `Accept-Encoding` and no other header. -/
def accepting (acceptEncoding : String) (name : String) : Option String :=
  if name = "accept-encoding" then some acceptEncoding else none

def png : Response := ⟨200, false, [("Content-Type", ["image/png"])]⟩

/-- A refusal carries no `Vary`, and identity is refused where its qvalue is `1.`. -/
theorem refusals_differ :
    ¬ Respects (accepting "*;q=0") plainText
      (applyResponseCompression compressionOn (accepting "*;q=0") plainText [65]) ∧
    ¬ Respects (accepting "identity;q=1.") png
      (applyResponseCompression compressionOn (accepting "identity;q=1.") png [65]) := by
  have hnone : ∀ acceptEncoding, (∀ coding, readWeight acceptEncoding coding = 0) →
      negotiateContentEncoding acceptEncoding = none := by
    intro acceptEncoding hzero
    cases hsome : negotiateContentEncoding acceptEncoding with
    | none => rfl
    | some negotiated =>
      exact absurd (negotiateContentEncoding_spec.2 _ hsome).1 (hzero _).not_gt
  have hwildcard := hnone (some "*;q=0") (by rintro (_ | _ | _) <;> decide)
  have hidentity := hnone (some "identity;q=1.") (by rintro (_ | _ | _) <;> decide)
  constructor
  · intro h
    have hvary := h.vary (by decide)
    simp only [applyResponseCompression, accepting, if_true, hwildcard] at hvary
    revert hvary
    decide
  · intro h
    have hrefused := h.notAcceptable (by
      simp only [applyResponseCompression, accepting, if_true, hidentity]
      rfl) .identity (.inl rfl)
    revert hrefused
    decide

end Velocious.ResponseCompression
