/-
  How the request buffer takes bytes: it does not matter how they are cut.

  `feedOnce_lawful`: a turn of `feed` looks at the bytes it takes only, so two
  chunks are read like both at once.
-/
import Velocious.HttpServer.RequestBuffer

namespace Velocious

open Foundation List

namespace RequestBuffer

variable {π : Type} {decoder : BodyDecoder π} {b b' : RequestBuffer π}
variable {line data rest : List UInt8}

theorem takeWhile_line (hline : (10 : UInt8) ∉ line) (rest : List UInt8) :
    (line ++ 10 :: rest).takeWhile (· ≠ 10) = line ∧
      (line ++ 10 :: rest).dropWhile (· ≠ 10) = 10 :: rest := by
  have hne : ∀ x ∈ line, (decide (x ≠ 10)) = true := fun x hx =>
    decide_eq_true fun h => hline (h ▸ hx)
  constructor
  · rw [takeWhile_append_of_pos hne]
    simp
  · rw [dropWhile_append_of_pos hne]
    simp

theorem takeWhile_open (hdata : (10 : UInt8) ∉ data) :
    data.takeWhile (· ≠ 10) = data ∧ data.dropWhile (· ≠ 10) = [] := by
  have hne : ∀ x ∈ data, (decide (x ≠ 10)) = true := fun x hx =>
    decide_eq_true fun h => hdata (h ▸ hx)
  exact ⟨takeWhile_eq_self_iff.mpr hne, dropWhile_eq_nil_iff.mpr hne⟩

theorem feedLine_line (hline : (10 : UInt8) ∉ line) :
    b.feedLine decoder (line ++ 10 :: rest) =
      (parse decoder
        { b with
          bodyLength := b.bodyLength + if b.readingBody then line.length + 1 else 0
          data := [] }
        (latin1 (b.data ++ line ++ [10]))).map fun b => (b, rest) := by
  obtain ⟨htake, hdrop⟩ := takeWhile_line hline rest
  simp only [feedLine, htake, hdrop]

theorem feedLine_open (hdata : (10 : UInt8) ∉ data) :
    b.feedLine decoder data =
      .ok ({ b with
        bodyLength := b.bodyLength + if b.readingBody then data.length else 0
        data := b.data ++ data }, []) := by
  obtain ⟨htake, hdrop⟩ := takeWhile_open hdata
  simp only [feedLine, hdrop]

theorem feedLine_append (hdata : (10 : UInt8) ∉ data) :
    b.feedLine decoder (data ++ rest) =
      feedLine decoder
        { b with
          bodyLength := b.bodyLength + if b.readingBody then data.length else 0
          data := b.data ++ data } rest := by
  by_cases hrest : (10 : UInt8) ∈ rest
  · obtain ⟨line, left, rfl, hline⟩ := eq_append_cons_of_mem hrest
    have hboth : (10 : UInt8) ∉ data ++ line := by
      rw [mem_append]
      exact not_or.mpr ⟨hdata, hline⟩
    rw [← append_assoc, feedLine_line hboth, feedLine_line hline]
    cases b.readingBody <;> simp [Nat.add_assoc]
  · have hboth : (10 : UInt8) ∉ data ++ rest := by
      rw [mem_append]
      exact not_or.mpr ⟨hdata, hrest⟩
    rw [feedLine_open hboth, feedLine_open hrest]
    cases b.readingBody <;> simp [Nat.add_assoc]

def remainingBodyBytes (b : RequestBuffer π) (contentLength : ℤ) : ℕ :=
  (max 1 (contentLength - b.bodyLength)).toNat

theorem feedPostBody_ready (decoder : BodyDecoder π) (b : RequestBuffer π) :
    (∃ e, ∀ data, b.feedPostBody decoder data = .error e) ∨
      ∃ length buffers, b.contentLength = some (some length) ∧ b.postBodyBuffers = some buffers := by
  unfold feedPostBody
  rcases b.postBodyBuffers with _ | buffers
  · exact .inl ⟨_, fun _ => rfl⟩
  rcases b.contentLength with _ | _ | length
  · exact .inl ⟨_, fun _ => rfl⟩
  · exact .inl ⟨_, fun _ => rfl⟩
  · exact .inr ⟨length, buffers, rfl, rfl⟩

variable {length : ℤ}

theorem feedPostBody_append (hlength : b.contentLength = some (some length))
    (hle : b.remainingBodyBytes length ≤ data.length) :
    b.feedPostBody decoder (data ++ rest) =
      (b.feedPostBody decoder data).map fun next => (next.1, next.2 ++ rest) := by
  unfold remainingBodyBytes at hle
  unfold feedPostBody
  rw [hlength]
  cases b.postBodyBuffers with
  | none => rfl
  | some buffers =>
    simp only [take_append_of_le_length hle, drop_append_of_le_length hle]
    split
    · cases postRequestDone decoder _ <;> rfl
    · rfl

section
variable {buffers : List UInt8} (hlength : b.contentLength = some (some length))
  (hbuffers : b.postBodyBuffers = some buffers) (hlt : data.length < b.remainingBodyBytes length)
  (hne : data ≠ [])
include hlength hbuffers hlt hne

theorem feedPostBody_open :
    b.feedPostBody decoder data =
      .ok ({ b with
        postBodyBuffers := some (buffers ++ data)
        bodyLength := b.bodyLength + data.length }, []) := by
  have hpos := length_pos_of_ne_nil hne
  have hreached : lengthReached (some (some length)) (b.bodyLength + data.length) = false := by
    simp only [lengthReached, Bool.and_eq_false_iff, decide_eq_false_iff_not]
    unfold remainingBodyBytes at hlt
    right
    push_cast
    omega
  unfold remainingBodyBytes at hlt
  simp only [feedPostBody, hlength, hbuffers, take_of_length_le hlt.le,
    drop_of_length_le hlt.le, hreached, Bool.false_eq_true, if_false]

theorem feedPostBody_append_open :
    b.feedPostBody decoder (data ++ rest) =
      feedPostBody decoder
        { b with
          postBodyBuffers := some (buffers ++ data)
          bodyLength := b.bodyLength + data.length } rest := by
  have hpos := length_pos_of_ne_nil hne
  unfold remainingBodyBytes at hlt
  have hrest : (max 1 (length - ((b.bodyLength + data.length : ℕ) : ℤ))).toNat =
      (max 1 (length - b.bodyLength)).toNat - data.length := by
    push_cast
    omega
  have htake : (data ++ rest).take (max 1 (length - b.bodyLength)).toNat =
      data ++ rest.take ((max 1 (length - b.bodyLength)).toNat - data.length) := by
    rw [take_append, take_of_length_le hlt.le]
  have hdrop : (data ++ rest).drop (max 1 (length - b.bodyLength)).toNat =
      rest.drop ((max 1 (length - b.bodyLength)).toNat - data.length) := by
    rw [drop_append, drop_of_length_le hlt.le, nil_append]
  simp only [feedPostBody, hlength, hbuffers, hrest, htake, hdrop, append_assoc,
    length_append, Nat.add_assoc]

end

theorem feedLine_shorter (hne : data ≠ []) (h : b.feedLine decoder data = .ok (b', rest)) :
    rest.length < data.length := by
  by_cases hdata : (10 : UInt8) ∈ data
  · obtain ⟨line, left, rfl, hline⟩ := eq_append_cons_of_mem hdata
    rw [feedLine_line hline] at h
    cases hparse : parse decoder _ (latin1 (b.data ++ line ++ [10])) with
    | error e => rw [hparse] at h; cases h
    | ok c =>
      rw [hparse] at h
      cases h
      rw [length_append, length_cons]
      omega
  · rw [feedLine_open hdata] at h
    cases h
    exact length_pos_of_ne_nil hne

theorem feedPostBody_shorter (hne : data ≠ [])
    (h : b.feedPostBody decoder data = .ok (b', rest)) : rest.length < data.length := by
  have hpos := length_pos_of_ne_nil hne
  unfold feedPostBody at h
  split at h
  · rename_i length _ _
    have hdrop : (data.drop (max 1 (length - b.bodyLength)).toNat).length < data.length := by
      rw [length_drop]
      omega
    dsimp only at h
    split at h
    · cases hdone : postRequestDone decoder _ with
      | error e => rw [hdone] at h; cases h
      | ok c =>
        rw [hdone] at h
        cases h
        exact hdrop
    · cases h
      exact hdrop
  · cases h
  · cases h

theorem feedOnce_cases (decoder : BodyDecoder π) (state : ParserState) :
    (∀ b : RequestBuffer π, b.state = state →
        ∀ data, b.feedOnce decoder data = b.feedLine decoder data) ∨
      (∀ b : RequestBuffer π, b.state = state →
        ∀ data, b.feedOnce decoder data = b.feedPostBody decoder data) ∨
      ∀ b : RequestBuffer π, b.state = state → ∀ char rest,
        b.feedOnce decoder (char :: rest) = (b.feedByte decoder char).map fun b => (b, rest) := by
  cases state with
  | status | headers | multiPartFormData | multiPartFormDataHeader | chunkedSize
  | chunkedTrailer =>
    left
    intro b hb data
    simp only [feedOnce, hb]
  | postBody =>
    right; left
    intro b hb data
    simp only [feedOnce, hb]
  | multiPartFormDataBody | chunkedData | chunkedDataCrlf | done =>
    right; right
    intro b hb char rest
    simp only [feedOnce, hb]

theorem feedOnce_shorter (hne : data ≠ []) (h : b.feedOnce decoder data = .ok (b', rest)) :
    rest.length < data.length := by
  rcases feedOnce_cases decoder b.state with hturn | hturn | hturn
  · exact feedLine_shorter hne (hturn b rfl data ▸ h)
  · exact feedPostBody_shorter hne (hturn b rfl data ▸ h)
  · obtain ⟨char, left, rfl⟩ := exists_cons_of_ne_nil hne
    rw [hturn b rfl] at h
    cases hbyte : b.feedByte decoder char with
    | error e => rw [hbyte] at h; cases h
    | ok c =>
      rw [hbyte] at h
      cases h
      exact Nat.lt_succ_self _

theorem feedOnce_append (hcompleted : b.completed = false) (hne : data ≠ [])
    (rest : List UInt8) :
    b.feedOnce decoder (data ++ rest) =
        (b.feedOnce decoder data).map (fun next => (next.1, next.2 ++ rest)) ∨
      ∃ b', b.feedOnce decoder data = .ok (b', []) ∧ b'.completed = false ∧
        b.feedOnce decoder (data ++ rest) = b'.feedOnce decoder rest := by
  rcases feedOnce_cases decoder b.state with hturn | hturn | hturn
  · simp only [hturn b rfl]
    by_cases hdata : (10 : UInt8) ∈ data
    · obtain ⟨line, left, rfl, hline⟩ := eq_append_cons_of_mem hdata
      left
      rw [append_assoc, cons_append, feedLine_line hline, feedLine_line hline]
      cases parse decoder _ (latin1 (b.data ++ line ++ [10])) <;> rfl
    · refine .inr ⟨_, feedLine_open hdata, hcompleted, ?_⟩
      rw [feedLine_append hdata]
      exact (hturn _ (by rfl) rest).symm
  · simp only [hturn b rfl]
    rcases feedPostBody_ready decoder b with ⟨e, herror⟩ | ⟨length, buffers, hlength, hbuffers⟩
    · left
      rw [herror, herror]
      rfl
    rcases le_or_gt (b.remainingBodyBytes length) data.length with hle | hlt
    · exact .inl (feedPostBody_append hlength hle)
    · refine .inr ⟨_, feedPostBody_open hlength hbuffers hlt hne, hcompleted, ?_⟩
      rw [feedPostBody_append_open hlength hbuffers hlt hne]
      exact (hturn _ (by rfl) rest).symm
  · obtain ⟨char, left, rfl⟩ := exists_cons_of_ne_nil hne
    left
    rw [cons_append, hturn b rfl, hturn b rfl]
    cases b.feedByte decoder char <;> rfl

/-- **A turn of `feed` looks at the bytes it takes only.** -/
theorem feedOnce_lawful (decoder : BodyDecoder π) :
    Reader.Lawful (feedOnce decoder) RequestBuffer.completed where
  shorter := feedOnce_shorter
  fails := by
    intro b data e rest hcompleted hne herror
    rcases feedOnce_append hcompleted hne rest with happend | ⟨b', hopen, -, -⟩
    · rw [happend, herror]
      rfl
    · rw [hopen] at herror
      cases herror
  extend := by
    intro b data b' left rest hcompleted hne hturn
    rcases feedOnce_append hcompleted hne rest with happend | ⟨c, hopen, hc, happend⟩
    · left
      rw [happend, hturn]
      rfl
    · rw [hopen] at hturn
      cases hturn
      exact .inr ⟨rfl, hc, fun _ => happend⟩

end RequestBuffer

end Velocious
