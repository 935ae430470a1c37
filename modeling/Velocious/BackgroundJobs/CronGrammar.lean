/-
  The documented grammar of cron expressions, against what `parseCronExpression` reads.

  * `Slip`: what the parser lets pass in a part: a second slash, a number that is not in decimal
    digits, a stepped range that begins or ends past the field.
-/
import Mathlib
import Velocious.BackgroundJobs.CronReading

namespace Velocious.CronExpression

open Foundation

/-! ## The grammar -/

def IsDecimal (raw : List Char) : Prop := raw ≠ [] ∧ raw.all Char.isDigit = true

/-- The number that they spell. -/
def decimal (raw : List Char) : ℕ := Nat.ofDigitChars 10 raw 0

/-- A decimal value within the field, or a name of it. -/
inductive Value (f : FieldSpec) (raw : List Char) : ℤ → Prop where
  | digits : IsDecimal raw → f.min ≤ decimal raw → decimal raw ≤ f.max → Value f raw (decimal raw)
  | name {i : ℕ} : f.names.idxOf? (String.ofList raw) = some i → Value f raw (i + f.min)

/-- `*`, a value and `N-M`. Before a step a value reaches to the end of the field. -/
inductive Range (f : FieldSpec) (step : Bool) : List Char → ℤ → ℤ → Prop where
  | star : Range f step ['*'] f.min f.max
  | value {raw n} : Value f raw n → Range f step raw n (if step then f.max else n)
  | range {a b m n} : Value f a m → Value f b n → m ≤ n → Range f step (a ++ '-' :: b) m n

/-- A part of a field: a range, or every `N`th value of one. -/
inductive Part (f : FieldSpec) : List Char → Set ℤ → Prop where
  | plain {range start stop} : Range f false range start stop → Part f range (Set.Icc start stop)
  | step {range raw start stop} : Range f true range start stop → IsDecimal raw → 0 < decimal raw →
      Part f (range ++ '/' :: raw) {v | start ≤ v ∧ v ≤ stop ∧ (decimal raw : ℤ) ∣ v - start}

section
variable {f : FieldSpec} {raw : List Char} {n : ℤ}

theorem Value.bounds (h : Value f raw n) : f.min ≤ n ∧ n ≤ f.max := by
  cases h with
  | digits _ hmin hmax => exact ⟨hmin, hmax⟩
  | name hi =>
    have hlt := (List.findIdx?_eq_some_iff_getElem.mp hi).1
    have := f.fits
    omega

theorem Value.alphanum (h : Value f raw n) : raw ≠ [] ∧ ∀ c ∈ raw, c.isAlphanum = true := by
  cases h with
  | digits hraw =>
    refine ⟨hraw.1, fun c hc => ?_⟩
    simp [Char.isAlphanum, List.all_eq_true.mp hraw.2 c hc]
  | @name i hi =>
    refine ⟨ne_nil_of_name hi, fun c hc => ?_⟩
    obtain ⟨hlt, heq, -⟩ := List.findIdx?_eq_some_iff_getElem.mp hi
    have hmem : String.ofList raw ∈ f.names := by
      rw [← eq_of_beq heq]
      exact List.getElem_mem hlt
    have hall := (f.named _ hmem).2
    rw [String.toList_ofList, List.all_eq_true] at hall
    simp [Char.isAlphanum, hall c hc]

theorem Value.notMem (h : Value f raw n) {c : Char} (hc : c.isAlphanum = false) : c ∉ raw := by
  intro hmem
  rw [h.alphanum.2 c hmem] at hc
  cases hc

theorem Value.ne_star (h : Value f raw n) : raw ≠ ['*'] := by
  rintro rfl
  exact h.notMem (c := '*') (by decide) (by simp)

theorem IsDecimal.notMem_names (h : IsDecimal raw) : String.ofList raw ∉ f.names := by
  intro hmem
  obtain ⟨c, cs, rfl⟩ := List.exists_cons_of_ne_nil h.1
  have hdigit := List.all_eq_true.mp h.2 c List.mem_cons_self
  have halpha := (f.named _ hmem).2
  rw [String.toList_ofList, List.all_eq_true] at halpha
  have := halpha c List.mem_cons_self
  simp only [Char.isAlpha, Char.isUpper, Char.isLower, Char.isDigit, Bool.or_eq_true] at hdigit this
  rcases this with h | h <;> grind

theorem Value.wide (h : Value f raw n) : WideValue f raw n := by
  cases h with
  | digits hraw _ hmax =>
    have := f.small
    refine .number hraw.1 hraw.notMem_names (numberInteger_digits hraw.1 hraw.2 ?_)
    unfold decimal at hmax
    omega
  | name hi => exact .name hi

variable {part range : List Char} {start stop : ℤ}

variable {step : Bool}

theorem Range.wide (h : Range f step range start stop) : WideRange f step range start stop := by
  cases h with
  | star => exact .star
  | value hn => exact .single hn.ne_star (hn.notMem (by decide)) hn.wide
  | range hm hn hle => exact .range (hm.notMem (by decide)) hm.wide hn.wide hle

theorem Range.bounds (h : Range f step range start stop) :
    (f.min ≤ start ∧ start ≤ f.max) ∧ f.min ≤ stop ∧ stop ≤ f.max := by
  have hsmall := f.small
  cases h with
  | star => omega
  | value hn =>
    have := hn.bounds
    cases step <;> omega
  | range hm hn =>
    exact ⟨hm.bounds, hn.bounds⟩

theorem Range.slash (h : Range f step range start stop) : '/' ∉ range := by
  cases h with
  | star => decide
  | value hn => exact hn.notMem (by decide)
  | range hm hn =>
    simp [hm.notMem (c := '/') (by decide), hn.notMem (c := '/') (by decide)]

theorem step_dvd (hraw : IsDecimal raw) {step : ℤ} (hstep : numberInteger raw = some step)
    {d : ℤ} (hd : 0 ≤ d) (hd' : d < 60) : step ∣ d ↔ (decimal raw : ℤ) ∣ d := by
  rcases lt_or_ge (decimal raw) (2 ^ 53) with hlt | hge
  · rw [numberInteger_digits hraw.1 hraw.2 hlt] at hstep
    cases hstep
    rfl
  · have hlarge := numberInteger_large hraw.1 hraw.2 hge hstep
    have hzero : ∀ k : ℤ, 60 ≤ k → (k ∣ d ↔ d = 0) := by
      intro k hk
      constructor
      · intro h
        exact Int.eq_zero_of_dvd_of_nonneg_of_lt hd (by omega) h
      · rintro rfl
        exact dvd_zero k
    rw [hzero _ (by omega), hzero _ (by omega)]

theorem step_pos (hraw : IsDecimal raw) {step : ℤ} (hstep : numberInteger raw = some step) :
    0 < step ↔ 0 < decimal raw := by
  rcases lt_or_ge (decimal raw) (2 ^ 53) with hlt | hge
  · rw [numberInteger_digits hraw.1 hraw.2 hlt] at hstep
    cases hstep
    exact Int.natCast_pos
  · have hlarge := numberInteger_large hraw.1 hraw.2 hge hstep
    omega

theorem visits_eq {start stop : ℤ} (hstart : 0 ≤ start) (hstop : stop < 60)
    (hraw : IsDecimal raw) {step : ℤ} (hstep : numberInteger raw = some step) (hpos : 0 < step) :
    {v | Visits stop step start v} =
      {v | start ≤ v ∧ v ≤ stop ∧ (decimal raw : ℤ) ∣ v - start} := by
  ext v
  simp only [visits_iff hpos hstart hstop]
  constructor
  · rintro ⟨hv, hv', hdvd⟩
    exact ⟨hv, hv', (step_dvd hraw hstep (by omega) (by omega)).mp hdvd⟩
  · rintro ⟨hv, hv', hdvd⟩
    exact ⟨hv, hv', (step_dvd hraw hstep (by omega) (by omega)).mpr hdvd⟩

theorem visits_one {start stop : ℤ} (hstart : 0 ≤ start) (hstop : stop < 60) :
    {v | Visits stop 1 start v} = Set.Icc start stop := by
  ext v
  simp [visits_iff one_pos hstart hstop]

/-! ## What the parser lets pass -/

/-- The text before a first slash. -/
def rangeText (part : List Char) : List Char := (part.splitOn '/').headD []

/-- The text between a first slash and a second. -/
def stepText (part : List Char) : Option (List Char) := (part.splitOn '/')[1]?

def rangeValues (range : List Char) : List (List Char) :=
  if range = ['*'] then []
  else if '-' ∈ range then
    [range.take (range.idxOf '-'), range.drop (range.idxOf '-' + 1)]
  else [range]

/-- What the parser lets pass in a part. -/
inductive Slip (f : FieldSpec) (part : List Char) : Prop where
  | slash : 2 < (part.splitOn '/').length → Slip f part
  | value {word} : word ∈ rangeValues (rangeText part) → ¬IsDecimal word →
      String.ofList word ∉ f.names → Slip f part
  | past {word} : word ∈ rangeValues (rangeText part) → IsDecimal word → f.max < decimal word →
      Slip f part
  | step {word} : stepText part = some word → ¬IsDecimal word → Slip f part

theorem Range.rangeValues_ok
    (h : Range f step range start stop) : ∀ raw ∈ rangeValues range, ∃ n, Value f raw n := by
  cases h with
  | star => simp [rangeValues]
  | value hn =>
    rw [rangeValues, if_neg hn.ne_star, if_neg (hn.notMem (by decide))]
    simpa using ⟨_, hn⟩
  | @range a b _ _ hm hn =>
    have hne : a ++ '-' :: b ≠ ['*'] := by
      intro h
      have := congrArg ('-' ∈ ·) h
      simp at this
    have hdash : '-' ∉ a := hm.notMem (by decide)
    rw [rangeValues, if_neg hne, if_pos (by simp), (dash_sides hdash b).1, (dash_sides hdash b).2]
    simp only [List.mem_cons, List.not_mem_nil, or_false, forall_eq_or_imp, forall_eq]
    exact ⟨⟨_, hm⟩, _, hn⟩

theorem Value.not_slip (h : Value f raw n) :
    (IsDecimal raw ∨ String.ofList raw ∈ f.names) ∧ (IsDecimal raw → (decimal raw : ℤ) ≤ f.max) := by
  cases h with
  | digits hraw _ hmax => exact ⟨.inl hraw, fun _ => hmax⟩
  | name hi =>
    have hmem : String.ofList raw ∈ f.names := by
      by_contra hnone
      rw [List.idxOf?_eq_none_iff.mpr hnone] at hi
      cases hi
    exact ⟨.inr hmem, fun hraw => absurd hmem hraw.notMem_names⟩

theorem IsDecimal.slash (h : IsDecimal raw) : '/' ∉ raw := by
  intro hmem
  have := List.all_eq_true.mp h.2 '/' hmem
  cases this

variable {V : Set ℤ}

/-- **The grammar has no slips.** -/
theorem Part.not_slip (h : Part f part V) : ¬Slip f part := by
  have hvalues : ∀ {step : Bool} {range : List Char} {start stop : ℤ},
      Range f step range start stop → rangeText part = range →
        ∀ raw ∈ rangeValues (rangeText part),
          (IsDecimal raw ∨ String.ofList raw ∈ f.names) ∧
            (IsDecimal raw → (decimal raw : ℤ) ≤ f.max) := by
    rintro step range start stop hrange rfl raw hraw
    obtain ⟨n, hn⟩ := hrange.rangeValues_ok raw hraw
    exact hn.not_slip
  cases h with
  | plain hrange =>
    have hsplit := List.splitOn_eq_singleton hrange.slash
    have htext := hvalues hrange (by rw [rangeText, hsplit]; rfl)
    intro hslip
    cases hslip with
    | slash h => simp [hsplit] at h
    | value hraw hno hname => exact (htext _ hraw).1.elim hno hname
    | past hraw hdecimal hpast => exact absurd ((htext _ hraw).2 hdecimal) (by omega)
    | step hstep => simp [stepText, hsplit] at hstep
  | @step range raw start stop hrange hraw hpos =>
    have hsplit : (range ++ '/' :: raw).splitOn '/' = [range, raw] := by
      rw [List.splitOn_append_cons_self_of_not_mem hrange.slash,
        List.splitOn_eq_singleton hraw.slash]
    have htext := hvalues hrange (by rw [rangeText, hsplit]; rfl)
    intro hslip
    cases hslip with
    | slash h => simp [hsplit] at h
    | value hraw hno hname => exact (htext _ hraw).1.elim hno hname
    | past hraw hdecimal hpast => exact absurd ((htext _ hraw).2 hdecimal) (by omega)
    | step hstep hno =>
      rw [stepText, hsplit] at hstep
      cases hstep
      exact hno hraw

/-- **A part of the grammar is read as what it denotes**, unless its step is too large. -/
theorem Part.wide (h : Part f part V)
    (hstep : ∀ raw, stepText part = some raw → numberInteger raw ≠ none) : WidePart f part V := by
  have hsmall := f.small
  cases h with
  | @plain range start stop hrange =>
    have hbounds := hrange.bounds
    have hset := @visits_one start stop (by omega) (by omega)
    rw [← hset]
    refine .plain hrange.slash hrange.wide fun v hv => ?_
    have hmem : v ∈ Set.Icc start stop := hset ▸ hv
    exact ⟨hbounds.1.1.trans hmem.1, hmem.2.trans hbounds.2.2⟩
  | @step range raw start stop hrange hraw hpos =>
    have hbounds := hrange.bounds
    have hsplit : (range ++ '/' :: raw).splitOn '/' = [range, raw] := by
      rw [List.splitOn_append_cons_self_of_not_mem hrange.slash,
        List.splitOn_eq_singleton hraw.slash]
    obtain ⟨step, hnumber⟩ := Option.ne_none_iff_exists'.mp (hstep raw (by rw [stepText, hsplit]; rfl))
    have hpos' := (step_pos hraw hnumber).mpr hpos
    have hset := @visits_eq raw start stop (by omega) (by omega) hraw step hnumber hpos'
    rw [← hset]
    have hpart : WidePart f (range ++ '/' :: (raw ++ [])) {v | Visits stop step start v} := by
      refine .step hrange.slash hraw.slash hrange.wide hnumber hpos' (fun v hv => ?_) (.inl rfl)
      have hmem : v ∈ {v | start ≤ v ∧ v ≤ stop ∧ (decimal raw : ℤ) ∣ v - start} := hset ▸ hv
      exact ⟨hbounds.1.1.trans hmem.1, hmem.2.1.trans hbounds.2.2⟩
    rwa [List.append_nil] at hpart

theorem WideValue.proper (h : WideValue f raw n)
    (hword : IsDecimal raw ∨ String.ofList raw ∈ f.names)
    (hpast : IsDecimal raw → (decimal raw : ℤ) ≤ f.max) : n ≤ f.max ∧ (f.min ≤ n → Value f raw n) := by
  cases h with
  | name hi => exact ⟨(Value.name hi).bounds.2, fun _ => .name hi⟩
  | number hne hname hn =>
    have hraw : IsDecimal raw := hword.resolve_right hname
    have hmax := hpast hraw
    have hsmall := f.small
    rw [numberInteger_digits hraw.1 hraw.2 (by unfold decimal at hmax; omega)] at hn
    cases hn
    exact ⟨hmax, fun hmin => .digits hraw hmin hmax⟩

theorem WideRange.proper (h : WideRange f step range start stop)
    (hvalues : ∀ word ∈ rangeValues range, (IsDecimal word ∨ String.ofList word ∈ f.names) ∧
      (IsDecimal word → (decimal word : ℤ) ≤ f.max)) :
    start ≤ f.max ∧ start ≤ stop ∧ (f.min ≤ start → Range f step range start stop) := by
  have hsmall := f.small
  cases h with
  | star => exact ⟨hsmall.2.1, hsmall.2.1, fun _ => .star⟩
  | single hstar hdash hn =>
    have hword := hvalues range (by rw [rangeValues, if_neg hstar, if_neg hdash]; simp)
    obtain ⟨hmax, hvalue⟩ := hn.proper hword.1 hword.2
    refine ⟨hmax, ?_, fun hmin => .value (hvalue hmin)⟩
    cases step <;> omega
  | @range a b m n hdash hm hn hle =>
    have hne : a ++ '-' :: b ≠ ['*'] := by
      intro h
      have := congrArg ('-' ∈ ·) h
      simp at this
    rw [rangeValues, if_neg hne, (dash_sides hdash b).1,
      (dash_sides hdash b).2] at hvalues
    have ha := hvalues a (by simp)
    have hb := hvalues b (by simp)
    obtain ⟨hmax, hvalue⟩ := hm.proper ha.1 ha.2
    obtain ⟨-, hvalue'⟩ := hn.proper hb.1 hb.2
    exact ⟨hmax, hle, fun hmin => .range (hvalue hmin) (hvalue' (hmin.trans hle)) hle⟩

/-- **What is read without a slip is a part of the grammar**, and read as what it denotes. -/
theorem WidePart.proper (h : WidePart f part V) (hslip : ¬Slip f part) : Part f part V := by
  have hsmall := f.small
  have hvalues : ∀ word ∈ rangeValues (rangeText part),
      (IsDecimal word ∨ String.ofList word ∈ f.names) ∧
        (IsDecimal word → (decimal word : ℤ) ≤ f.max) := by
    intro word hword
    constructor
    · by_contra hno
      rw [not_or] at hno
      exact hslip (.value hword hno.1 hno.2)
    · intro hraw
      by_contra hpast
      exact hslip (.past hword hraw (by omega))
  cases h with
  | @plain range start stop hslash hrange hin =>
    rw [rangeText, List.splitOn_eq_singleton hslash] at hvalues
    obtain ⟨hmax, hle, hread⟩ := hrange.proper hvalues
    have hrange' := hread (hin start (.first hle)).1
    rw [visits_one (hsmall.1.trans hrange'.bounds.1.1) (by have := hrange'.bounds; omega)]
    exact .plain hrange'
  | @step range raw rest start stop step hslash hraw hrange hnumber hpos hin hrest =>
    obtain ⟨more, hsplit⟩ := splitOn_rest hraw hrest
    have hparts : (range ++ '/' :: (raw ++ rest)).splitOn '/' = range :: raw :: more := by
      rw [List.splitOn_append_cons_self_of_not_mem hslash, hsplit]
    rw [rangeText, hparts] at hvalues
    obtain ⟨hmax, hle, hread⟩ := hrange.proper hvalues
    have hrange' := hread (hin start (.first hle)).1
    have hdecimal : IsDecimal raw := by
      by_contra hno
      exact hslip (.step (by rw [stepText, hparts]; rfl) hno)
    have hend : rest = [] := by
      rcases hrest with rfl | ⟨after, rfl⟩
      · rfl
      · refine absurd (Slip.slash ?_) hslip
        rw [List.splitOn_append_cons_self_of_not_mem hslash,
          List.splitOn_append_cons_self_of_not_mem hraw, List.length_cons, List.length_cons]
        have := List.length_pos_iff.mpr (List.splitOn_ne_nil '/' after)
        omega
    subst hend
    rw [List.append_nil]
    rw [visits_eq (hsmall.1.trans hrange'.bounds.1.1) (by have := hrange'.bounds; omega) hdecimal
      hnumber hpos]
    exact .step hrange' hdecimal ((step_pos hdecimal hnumber).mp hpos)

end

theorem WidePart.step_read {f : FieldSpec} {part raw : List Char} {V : Set ℤ}
    (h : WidePart f part V) (hstep : stepText part = some raw) :
    ∃ n, numberInteger raw = some n := by
  cases h with
  | plain hslash => simp [stepText, List.splitOn_eq_singleton hslash] at hstep
  | step hslash hraw _ hnumber _ _ hrest =>
    obtain ⟨more, hsplit⟩ := splitOn_rest hraw hrest
    rw [stepText, List.splitOn_append_cons_self_of_not_mem hslash, hsplit] at hstep
    cases hstep
    exact ⟨_, hnumber⟩

/-! ## Expressions -/

section
variable (toLowerCase : String → String) (expression : String)

/-- The parser accepts the expression exactly if the grammar does, with the sets that it denotes. -/
def FollowsGrammar : Prop :=
  ∀ parsed, parseCronExpression toLowerCase expression = .ok parsed ↔
    Meaning Part toLowerCase expression parsed

def ReadWithSlip : Prop :=
  (∃ parsed, Meaning WidePart toLowerCase expression parsed) ∧
    ∃ p ∈ partsOf (expansion toLowerCase expression), Slip p.1 p.2

/-- The expression is one of the grammar, and has a step that `Number` reads as `Infinity`. -/
def HasInfiniteStep : Prop :=
  (∃ parsed, Meaning Part toLowerCase expression parsed) ∧
    ∃ p ∈ partsOf (expansion toLowerCase expression), ∃ raw, stepText p.2 = some raw ∧
      numberInteger raw = none

variable {toLowerCase expression}

theorem FollowsGrammar.not_readWithSlip (h : FollowsGrammar toLowerCase expression) :
    ¬ReadWithSlip toLowerCase expression := by
  rintro ⟨⟨parsed, hwide⟩, p, hp, hslip⟩
  have hmeaning := (h parsed).mp (parseCronExpression_ok.mpr hwide)
  obtain ⟨V, hV⟩ := hmeaning.denotes.exists_of_mem p hp
  exact hV.not_slip hslip

theorem FollowsGrammar.not_hasInfiniteStep (h : FollowsGrammar toLowerCase expression) :
    ¬HasInfiniteStep toLowerCase expression := by
  rintro ⟨⟨parsed, hmeaning⟩, p, hp, raw, hstep, hnumber⟩
  have hwide := parseCronExpression_ok.mp ((h parsed).mpr hmeaning)
  obtain ⟨V, hV⟩ := hwide.denotes.exists_of_mem p hp
  obtain ⟨n, hn⟩ := hV.step_read hstep
  rw [hnumber] at hn
  cases hn

variable (toLowerCase expression)

/-- **Where the parser follows the documented grammar.** -/
theorem followsGrammar_iff :
    FollowsGrammar toLowerCase expression ↔
      ¬ReadWithSlip toLowerCase expression ∧ ¬HasInfiniteStep toLowerCase expression := by
  constructor
  · intro h
    exact ⟨h.not_readWithSlip, h.not_hasInfiniteStep⟩
  · rintro ⟨hslip, hstep⟩ parsed
    rw [parseCronExpression_ok]
    constructor
    · rintro ⟨hblank, hdenotes, hexpression⟩
      refine ⟨hblank, hdenotes.mono fun p hp V hV => hV.proper fun hno => ?_, hexpression⟩
      exact hslip ⟨⟨parsed, hblank, hdenotes, hexpression⟩, p, hp, hno⟩
    · rintro ⟨hblank, hdenotes, hexpression⟩
      refine ⟨hblank, hdenotes.mono fun p hp V hV => hV.wide fun raw hraw hno => ?_, hexpression⟩
      exact hstep ⟨⟨parsed, hblank, hdenotes, hexpression⟩, p, hp, raw, hraw, hno⟩

theorem second_slash_accepted : ¬FollowsGrammar String.toLower "1/2/3 * * * *" := by
  intro h
  obtain ⟨parsed, hparsed, -⟩ := exists_parsed String.toLower "1/2/3 * * * *"
    (fun _ => true) (by decide +kernel)
  have htext : expansion String.toLower "1/2/3 * * * *" = "1/2/3 * * * *".toList := by
    decide +kernel
  refine h.not_readWithSlip ⟨⟨parsed, parseCronExpression_ok.mp hparsed⟩,
    (.minute, "1/2/3".toList), ?_, .slash (by decide)⟩
  have hsplit : splitSpaces "1/2/3 * * * *".toList =
      ["1/2/3".toList, ['*'], ['*'], ['*'], ['*']] := by decide
  have hcomma : "1/2/3".toList ∈ "1/2/3".toList.splitOn ',' := by decide
  rw [htext, partsOf, hsplit]
  exact List.mem_flatMap.mpr ⟨_, List.mem_cons_self, List.mem_map_of_mem hcomma⟩

end

end Velocious.CronExpression
