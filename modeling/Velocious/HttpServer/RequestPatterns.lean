/-
  What the patterns of the request buffer make of lines that were sent.
-/
import Velocious.HttpServer.SentRequests

namespace Velocious

open Foundation List

attribute [local instance (high)] List.decidableBAll

/-! ## Text and bytes -/

def IsLine (s : List Char) : Prop := ∀ c ∈ s, c.toNat < 256 ∧ c ≠ '\r' ∧ c ≠ '\n'

variable {s : List Char}

theorem latin1_latin1Bytes (hs : ∀ c ∈ s, c.toNat < 256) : latin1 (latin1Bytes s) = s := by
  have hback : ∀ c ∈ s, Char.ofNat (UInt8.ofNat c.toNat).toNat = c := by
    intro c hc
    rw [UInt8.toNat_ofNat', Nat.mod_eq_of_lt (hs c hc), Char.ofNat_toNat]
  rw [latin1, latin1Bytes, map_map]
  exact (map_congr_left hback).trans (map_id' s)

theorem latin1Bytes_append (s t : List Char) :
    latin1Bytes (s ++ t) = latin1Bytes s ++ latin1Bytes t := map_append

theorem newline_notMem (hs : ∀ c ∈ s, c.toNat < 256 ∧ c ≠ '\n') : (10 : UInt8) ∉ latin1Bytes s := by
  intro h
  obtain ⟨c, hc, hbyte⟩ := mem_map.mp h
  obtain ⟨hlt, hne⟩ := hs c hc
  have hten : c.toNat = 10 := by
    have hnat := congrArg UInt8.toNat hbyte
    rw [UInt8.toNat_ofNat', Nat.mod_eq_of_lt hlt] at hnat
    exact hnat
  exact hne (Char.toNat_inj.mp hten)

theorem IsLine.append {t : List Char} (hs : IsLine s) (ht : IsLine t) : IsLine (s ++ t) := by
  intro c hc
  rcases mem_append.mp hc with h | h
  · exact hs c h
  · exact ht c h

theorem IsLine.cons {c : Char} {s : List Char} (hc : c.toNat < 256 ∧ c ≠ '\r' ∧ c ≠ '\n')
    (hs : IsLine s) : IsLine (c :: s) := by
  intro d hd
  rcases mem_cons.mp hd with rfl | h
  · exact hc
  · exact hs d h

theorem isLine_of_field (hs : ∀ c ∈ s, isFieldChar c = true) : IsLine s := by
  intro c hc
  have hfield := hs c hc
  refine ⟨?_, ?_, ?_⟩
  · rw [isFieldChar, Bool.or_eq_true] at hfield
    rcases hfield with h | h
    · rw [of_decide_eq_true h]
      decide
    · simp only [Bool.and_eq_true, decide_eq_true_eq] at h
      omega
  · rintro rfl
    exact absurd hfield (by decide)
  · rintro rfl
    exact absurd hfield (by decide)

variable {c : Char}

theorem isFieldChar_of_visible (hc : isVisible c = true) : isFieldChar c = true := by
  simp only [isVisible, isFieldChar, Bool.and_eq_true, Bool.or_eq_true, decide_eq_true_eq] at hc ⊢
  omega

theorem isFieldChar_of_blank (hc : isBlank c = true) : isFieldChar c = true := by
  rw [isBlank, Bool.or_eq_true] at hc
  rcases hc with h | h <;> rw [of_decide_eq_true h] <;> decide

theorem isVisible_of_token (hc : isTokenChar c = true) : isVisible c = true := by
  rw [isTokenChar, Bool.and_eq_true] at hc
  exact hc.1

theorem lineContent_line (hs : IsLine s) : lineContent (s ++ ['\r', '\n']) = some s := by
  have htake : (s ++ ['\r', '\n']).takeWhile (fun c => c ≠ '\r' && c ≠ '\n') = s := by
    rw [takeWhile_append_of_pos]
    · simp
    · intro c hc
      obtain ⟨-, hr, hn⟩ := hs c hc
      simp [hr, hn]
  rw [lineContent, htake]
  simp

theorem splitColon_eq_none (hs : ¬ [':', ' '] <:+: s) : splitColon s = none := by
  induction s with
  | nil => rfl
  | cons c s ih =>
    have htail : ¬ [':', ' '] <:+: s := fun h => hs (infix_cons h)
    rw [splitColon.eq_def]
    simp only [ih htail]
    split
    · rename_i v value
      exact absurd ⟨[], v :: value, rfl⟩ hs
    · rfl

theorem splitColon_header {name value : List Char} (hvalue : value ≠ [])
    (hcolon : ¬ [':', ' '] <:+: value) :
    splitColon (name ++ ':' :: ' ' :: value) = some (name, value) := by
  induction name with
  | nil =>
    obtain ⟨v, value, rfl⟩ := exists_cons_of_ne_nil hvalue
    have hnone := splitColon_eq_none hcolon
    have hspace : splitColon (' ' :: v :: value) = none := by
      rw [splitColon.eq_def]
      simp only [hnone]
      rfl
    rw [splitColon.eq_def]
    simp [hspace]
  | cons c name ih =>
    rw [cons_append, splitColon.eq_def]
    simp only [ih]

theorem matchHeader_line {name value : List Char} (hname : IsLine name) (hne : name ≠ [])
    (hvalue : IsLine value) (hvne : value ≠ []) (hcolon : ¬ [':', ' '] <:+: value) :
    matchHeader (name ++ ':' :: ' ' :: value ++ ['\r', '\n']) = some (name, value) := by
  have hline : IsLine (name ++ ':' :: ' ' :: value) :=
    hname.append (.cons (by decide) (.cons (by decide) hvalue))
  rw [matchHeader, lineContent_line hline, Option.bind_some, splitColon_header hvne hcolon]
  exact if_pos (decide_eq_true hne)

theorem splitVersion_path {path version : List Char} (hpath : ∀ c ∈ path, c ≠ ' ')
    (hne : path ≠ []) (hversion : version ≠ []) :
    splitVersion (path ++ " HTTP/".toList ++ version) = some (path, version) := by
  induction path with
  | nil => exact absurd rfl hne
  | cons c path ih =>
    cases path with
    | nil =>
      rw [splitVersion.eq_def]
      simp [hversion]
    | cons d path =>
      have hd : d ≠ ' ' := hpath d (by simp)
      have hrest := ih (fun x hx => hpath x (mem_cons_of_mem c hx)) (cons_ne_nil d path)
      have hnot : " HTTP/".toList.isPrefixOf (d :: path ++ " HTTP/".toList ++ version) = false := by
        simp [List.isPrefixOf, hd.symm]
      rw [cons_append, cons_append, splitVersion, hnot, hrest]
      rfl

theorem matchStatusLine_line {method path version : List Char}
    (hmethod : ∀ c ∈ method, isMethodChar c = true) (hmne : method ≠ [])
    (hmline : IsLine method)
    (hpath : IsLine path) (hspace : ∀ c ∈ path, c ≠ ' ') (hpne : path ≠ [])
    (hversion : IsLine version) (hvne : version ≠ []) :
    matchStatusLine (method ++ ' ' :: path ++ " HTTP/".toList ++ version ++ ['\r', '\n']) =
      some (method, path, version) := by
  have hline : IsLine (method ++ ' ' :: path ++ " HTTP/".toList ++ version) :=
    ((hmline.append (.cons (by decide) hpath)).append (by unfold IsLine; decide)).append hversion
  have hsplit : method ++ ' ' :: path ++ " HTTP/".toList ++ version =
      method ++ ' ' :: (path ++ " HTTP/".toList ++ version) := by simp
  have htake : (method ++ ' ' :: (path ++ " HTTP/".toList ++ version)).takeWhile isMethodChar =
      method := by
    rw [takeWhile_append_of_pos hmethod]
    simp [isMethodChar]
  have hdrop : (method ++ ' ' :: (path ++ " HTTP/".toList ++ version)).dropWhile isMethodChar =
      ' ' :: (path ++ " HTTP/".toList ++ version) := by
    rw [dropWhile_append_of_pos hmethod]
    exact dropWhile_cons_of_neg (by decide)
  rw [matchStatusLine, lineContent_line hline, Option.bind_some, hsplit]
  simp only [htake, hdrop, splitVersion_path hspace hpne hvne, Option.map_some]

/-! ## Chunk sizes -/

theorem trim_append {blanks : List Char} (hne : s ≠ [])
    (hs : ∀ c ∈ s, isJsSpace c = false) (hblanks : ∀ c ∈ blanks, isJsSpace c = true) :
    trim (.ofList (s ++ blanks)) = .ofList s := by
  obtain ⟨c, t, rfl⟩ := exists_cons_of_ne_nil hne
  obtain ⟨d, u, hd⟩ := exists_cons_of_ne_nil (reverse_ne_nil_iff.mpr hne)
  have hfirst : (c :: t ++ blanks).dropWhile isJsSpace = c :: t ++ blanks :=
    dropWhile_cons_of_neg (by simp [hs c mem_cons_self])
  have hlast : ((c :: t).reverse).dropWhile isJsSpace = (c :: t).reverse := by
    have hmem : d ∈ (c :: t).reverse := hd ▸ mem_cons_self
    rw [hd]
    exact dropWhile_cons_of_neg (by simp [hs d (mem_reverse.mp hmem)])
  rw [trim, String.toList_ofList, hfirst, reverse_append,
    dropWhile_append_of_pos (by simpa using hblanks), hlast, reverse_reverse]

theorem trim_keeps {t : List Char} {x : Char} (hc : isJsSpace c = false)
    (hx : isJsSpace x = false) : ∃ t', trim (.ofList (c :: s ++ x :: t)) = .ofList (c :: s ++ x :: t') := by
  have hfirst : (c :: s ++ x :: t).dropWhile isJsSpace = c :: s ++ x :: t :=
    dropWhile_cons_of_neg (by simp [hc])
  have hstop : ((x :: (c :: s).reverse).dropWhile isJsSpace) = x :: (c :: s).reverse :=
    dropWhile_cons_of_neg (by simp [hx])
  refine ⟨(t.reverse.dropWhile isJsSpace).reverse, ?_⟩
  rw [trim, String.toList_ofList, hfirst, reverse_append, reverse_cons,
    append_assoc, dropWhile_append, singleton_append, hstop]
  split
  · rename_i h
    simp [isEmpty_iff.mp h]
  · simp

theorem isJsSpace_of_blank (hc : isBlank c = true) : isJsSpace c = true := by
  rw [isBlank, Bool.or_eq_true] at hc
  rcases hc with h | h <;> rw [of_decide_eq_true h] <;> decide

theorem hexDigit_plain (hc : isDigit 16 c = true) : isJsSpace c = false ∧ c ≠ ';' := by
  refine ⟨(isDigit_plain le_rfl hc).1, ?_⟩
  rintro rfl
  exact absurd hc (by decide)

theorem isVisible_of_digit {radix : ℕ} (hr : radix ≤ 16)
    (hc : isDigit radix c = true) : isVisible c = true := by
  have hrange := isDigit_range hr hc
  simp only [isVisible, Bool.and_eq_true, decide_eq_true_eq]
  omega

theorem IsNumber.parseInt {radix : Option ℕ} (hr : radix.getD 10 ≤ 16) {s : String} {n : ℕ}
    (h : IsNumber (radix.getD 10) s n) : parseInt radix s = some (n : ℤ) := by
  rw [parseInt_digits hr h.nonempty h.digits, h.value]

theorem chunkSizeToken_sizeLine {c : SentChunk} (hc : c.WellFormed) :
    trim (.ofList c.sizeLine) ≠ "" ∧
      RequestBuffer.chunkSizeToken (trim (.ofList c.sizeLine)) = c.size := by
  obtain ⟨⟨hne, hdigits, -⟩, -, hsemicolon⟩ := hc
  obtain ⟨d, digits, hsize⟩ : ∃ d digits, c.size.toList = d :: digits :=
    exists_cons_of_ne_nil fun h => hne (String.toList_eq_nil_iff.mp h)
  have hspace : ∀ x ∈ c.size.toList, isJsSpace x = false := fun x hx =>
    (hexDigit_plain (hdigits x hx)).1
  have hplain : ∀ x ∈ c.size.toList, (decide (x ≠ ';')) = true := fun x hx =>
    decide_eq_true (hexDigit_plain (hdigits x hx)).2
  have hsizene : c.size.toList ≠ [] := hsize ▸ cons_ne_nil d digits
  have hofList : String.ofList c.size.toList = c.size := String.ofList_toList
  have hcut : ∀ blanks : List Char, (∀ x ∈ blanks, isJsSpace x = true) →
      trim (.ofList (c.size.toList ++ blanks)) = c.size := fun blanks hblanks =>
    (trim_append hsizene hspace hblanks).trans hofList
  unfold SentChunk.sizeLine RequestBuffer.chunkSizeToken
  rcases hsemicolon with hnone | hsome
  · have hagain := hcut [] (by simp)
    rw [append_nil, hofList] at hagain
    rw [hnone, String.toList_empty, append_nil, hcut _ (by decide),
      takeWhile_eq_self_iff.mpr hplain, hofList, hagain]
    exact ⟨hne, rfl⟩
  · obtain ⟨rest, hrest⟩ := head?_eq_some_iff.mp hsome
    obtain ⟨blanks, hblanks, hext⟩ : ∃ blanks, (∀ x ∈ blanks, isBlank x = true) ∧
        c.extension.toList = blanks ++ ';' :: rest :=
      ⟨_, fun _ => mem_takeWhile_imp, hrest ▸ takeWhile_append_dropWhile.symm⟩
    have hline : c.size.toList ++ c.extension.toList ++ ['\r', '\n'] =
        d :: (digits ++ blanks) ++ ';' :: (rest ++ ['\r', '\n']) := by
      rw [hext, hsize]
      simp
    obtain ⟨left, htrim⟩ := trim_keeps (s := digits ++ blanks) (t := rest ++ ['\r', '\n'])
      (hspace d (by simp [hsize])) (show isJsSpace ';' = false by decide)
    have htake : (d :: (digits ++ blanks) ++ ';' :: left).takeWhile (· ≠ ';') =
        c.size.toList ++ blanks := by
      rw [← cons_append, ← hsize, takeWhile_append_of_pos]
      · simp
      · intro x hx
        rcases mem_append.mp hx with h | h
        · exact hplain x h
        · refine decide_eq_true ?_
          rintro rfl
          exact absurd (hblanks _ h) (by decide)
    rw [hline, htrim, String.toList_ofList, htake,
      hcut blanks fun x hx => isJsSpace_of_blank (hblanks x hx)]
    exact ⟨fun h => cons_ne_nil _ _ (String.ofList_eq_empty_iff.mp h), rfl⟩

end Velocious
