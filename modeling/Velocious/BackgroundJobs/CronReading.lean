/-
  What `parseCronExpression` reads, declaratively.

  * `Visits stop step start v`: the loop over a part visits `v`.
-/
import Velocious.BackgroundJobs.CronExpression
import Mathlib.Data.Set.Insert

namespace Velocious.CronExpression

open Foundation List

/-! ## The loop over a part -/

/-- The loop from `start` visits a value. -/
inductive Visits (stop step : ℤ) : ℤ → ℤ → Prop where
  | first {start} : start ≤ stop → Visits stop step start start
  | next {start after v} : start ≤ stop → Double.ofInt (start + step) = .finite after →
      Visits stop step after v → Visits stop step start v

section
variable {stop step start v : ℤ}

theorem Visits.iff_of_finite {after : ℤ} (h : Double.ofInt (start + step) = .finite after) :
    Visits stop step start v ↔ start ≤ stop ∧ (v = start ∨ Visits stop step after v) := by
  constructor
  · intro hv
    cases hv with
    | first hstop => exact ⟨hstop, .inl rfl⟩
    | next hstop hafter hv =>
      rw [h] at hafter
      cases hafter
      exact ⟨hstop, .inr hv⟩
  · rintro ⟨hstop, rfl | hv⟩
    · exact .first hstop
    · exact .next hstop h hv

theorem Visits.iff_of_not_finite (h : ∀ after, Double.ofInt (start + step) ≠ .finite after) :
    Visits stop step start v ↔ start ≤ stop ∧ v = start := by
  constructor
  · intro hv
    cases hv with
    | first hstop => exact ⟨hstop, rfl⟩
    | next _ hafter _ => exact absurd hafter (h _)
  · rintro ⟨hstop, rfl⟩
    exact .first hstop

theorem Visits.start_le (h : Visits stop step start v) : start ≤ stop := by
  cases h <;> assumption

theorem ofInt_large {n m : ℤ} (h : 2 ^ 53 ≤ n) (hm : Double.ofInt n = .finite m) : 2 ^ 53 ≤ m := by
  have hround := Double.le_roundNat (m := n.natAbs) (by omega)
  have hsign : n.sign = 1 := Int.sign_eq_one_of_pos (by omega)
  unfold Double.ofInt at hm
  split at hm
  · cases hm
  · rw [hsign] at hm
    cases hm
    omega

theorem lt_next {after : ℤ} (hstart : -1 ≤ start ∧ start < 60) (hstep : 0 < step)
    (h : Double.ofInt (start + step) = .finite after) :
    start < after ∧ (after = start + step ∨ 60 ≤ step ∧ 60 ≤ after) := by
  rcases lt_or_ge (start + step) (2 ^ 53) with hlt | hge
  · rw [Double.ofInt_of_safe (by rw [abs_le, Double.maxSafe]; omega)] at h
    cases h
    exact ⟨by omega, .inl rfl⟩
  · have := ofInt_large hge h
    exact ⟨by omega, .inr (by omega)⟩

theorem visits_iff (hstep : 0 < step) (hstart : 0 ≤ start) (hstop : stop < 60) :
    Visits stop step start v ↔ start ≤ v ∧ v ≤ stop ∧ step ∣ v - start := by
  induction hn : (60 - start).toNat using Nat.strong_induction_on generalizing start with
  | _ n ih =>
  rcases lt_or_ge stop start with hempty | hle
  · constructor
    · intro h
      exact absurd h.start_le (by omega)
    · omega
  have hlate : ∀ w, 60 ≤ step → start ≤ w → w ≤ stop → step ∣ w - start → w = start := by
    intro w hlarge hw hw' hdvd
    have := Int.eq_zero_of_dvd_of_nonneg_of_lt (by omega) (by omega) hdvd
    omega
  by_cases hfinite : ∃ after, Double.ofInt (start + step) = .finite after
  · obtain ⟨after, hafter⟩ := hfinite
    obtain ⟨hlt, heq⟩ := lt_next (by omega) hstep hafter
    rw [Visits.iff_of_finite hafter, ih _ (by omega) (by omega) rfl]
    rcases heq with rfl | ⟨hlarge, hpast⟩
    · have hdvd : step ∣ v - (start + step) ↔ step ∣ v - start := by
        rw [← sub_sub, dvd_sub_self_right]
      rw [hdvd]
      constructor
      · rintro ⟨-, rfl | hv⟩
        · simp [hle]
        · omega
      · rintro ⟨hv, hv', hdvd⟩
        refine ⟨hle, ?_⟩
        rcases eq_or_lt_of_le hv with rfl | hne
        · exact .inl rfl
        · have := Int.le_of_dvd (by omega) hdvd
          exact .inr ⟨by omega, hv', hdvd⟩
    · constructor
      · rintro ⟨-, rfl | hv⟩
        · simp [hle]
        · omega
      · rintro ⟨hv, hv', hdvd⟩
        exact ⟨hle, .inl (hlate v hlarge hv hv' hdvd)⟩
  · have hlarge : 60 ≤ step := by
      by_contra hsmall
      exact hfinite ⟨_, Double.ofInt_of_safe (by rw [abs_le, Double.maxSafe]; omega)⟩
    rw [Visits.iff_of_not_finite (fun after h => hfinite ⟨after, h⟩)]
    constructor
    · rintro ⟨-, rfl⟩
      simp [hle]
    · rintro ⟨hv, hv', hdvd⟩
      exact ⟨hle, hlate v hlarge hv hv' hdvd⟩

end

section
variable {f : FieldSpec} {stop step : ℤ}

/-- **The loop adds the values it visits**, and accepts no value outside of the field. -/
theorem addValues_ok (hstep : 0 < step) {fuel : ℕ} {start : ℤ} {result result' : Finset ℤ}
    (hpos : 0 < fuel) (hfuel : f.min ≤ start → f.max - start + 2 ≤ fuel) :
    addValues f stop step fuel start result = .ok result' ↔
      (∀ v, Visits stop step start v → f.min ≤ v ∧ v ≤ f.max) ∧
        ∀ v, v ∈ result' ↔ v ∈ result ∨ Visits stop step start v := by
  induction fuel generalizing start result with
  | zero => omega
  | succ fuel ih =>
  unfold addValues
  have hsmall := f.small
  split
  · have hnone : ∀ v, ¬Visits stop step start v := fun v h => absurd h.start_le (by omega)
    simp [hnone, Finset.ext_iff, iff_comm]
  split
  · simp only [reduceCtorEq, false_iff, not_and]
    intro hin
    have := hin start (.first (by omega))
    omega
  have hle : start ≤ stop := by omega
  have hstart : f.min ≤ start ∧ start ≤ f.max := by omega
  split
  · rename_i after hafter
    obtain ⟨hlt, -⟩ := lt_next (by omega) hstep hafter
    rw [ih (by omega) (by omega)]
    simp only [Visits.iff_of_finite hafter, hle, true_and]
    apply and_congr
    · constructor
      · rintro h v (rfl | hv)
        · exact hstart
        · exact h v hv
      · exact fun h v hv => h v (.inr hv)
    · simp [or_left_comm, or_assoc]
  all_goals
    rename_i hafter
    have hnone : ∀ after, Double.ofInt (start + step) ≠ .finite after := by simp [hafter]
    simp only [Visits.iff_of_not_finite hnone, hle, true_and, Except.ok.injEq, forall_eq, hstart,
      Finset.ext_iff, Finset.mem_insert]
    simp only [or_comm, iff_comm]

end

/-! ## Parts -/

/-- A value as it is read: a name of the field, or whatever `Number` reads as an integer. -/
inductive WideValue (f : FieldSpec) (raw : List Char) : ℤ → Prop where
  | name {i : ℕ} : f.names.idxOf? (String.ofList raw) = some i → WideValue f raw (i + f.min)
  | number {n} : raw ≠ [] → String.ofList raw ∉ f.names → numberInteger raw = some n →
      WideValue f raw n

/-- The bounds of the loop; with a step a single value reaches to the end of the field. -/
inductive WideRange (f : FieldSpec) (step : Bool) : List Char → ℤ → ℤ → Prop where
  | star : WideRange f step ['*'] f.min f.max
  | single {raw n} : raw ≠ ['*'] → '-' ∉ raw → WideValue f raw n →
      WideRange f step raw n (if step then f.max else n)
  | range {a b m n} : '-' ∉ a → WideValue f a m → WideValue f b n → m ≤ n →
      WideRange f step (a ++ '-' :: b) m n

/-- An accepted part: only the visited values are within the field, and what follows a second
    slash is not read. -/
inductive WidePart (f : FieldSpec) : List Char → Set ℤ → Prop where
  | plain {range start stop} : '/' ∉ range → WideRange f false range start stop →
      (∀ v, Visits stop 1 start v → f.min ≤ v ∧ v ≤ f.max) →
      WidePart f range {v | Visits stop 1 start v}
  | step {range raw rest start stop step} : '/' ∉ range → '/' ∉ raw →
      WideRange f true range start stop → numberInteger raw = some step → 0 < step →
      (∀ v, Visits stop step start v → f.min ≤ v ∧ v ≤ f.max) →
      (rest = [] ∨ ∃ more, rest = '/' :: more) →
      WidePart f (range ++ '/' :: (raw ++ rest)) {v | Visits stop step start v}

section
variable {f : FieldSpec}

theorem ok_bind_iff {α β ε : Type} {x : Except ε α} {g : α → Except ε β} {b : β} :
    (x >>= g) = .ok b ↔ ∃ a, x = .ok a ∧ g a = .ok b := by
  cases x with
  | error e => simp [bind, Except.bind]
  | ok a => simp [bind, Except.bind]

theorem ok_bind {α β ε : Type} (a : α) (g : α → Except ε β) : ((.ok a : Except ε α) >>= g) = g a :=
  rfl

variable {part raw : List Char}

theorem ne_nil_of_name {i : ℕ} (h : f.names.idxOf? (String.ofList raw) = some i) : raw ≠ [] := by
  rintro rfl
  have hnone : f.names.idxOf? (String.ofList []) = none :=
    idxOf?_eq_none_iff.mpr fun hmem => (f.named _ hmem).1 rfl
  rw [hnone] at h
  cases h

theorem parseValue_ok {n : ℤ} : parseValue f raw = .ok n ↔ WideValue f raw n := by
  unfold parseValue
  constructor
  · intro h
    split at h
    · cases h
    rename_i hne
    split at h
    · cases h
      exact .name ‹_›
    rename_i hnone
    split at h
    · cases h
      exact .number hne (idxOf?_eq_none_iff.mp hnone) ‹_›
    · cases h
  · intro h
    cases h with
    | name hi => rw [if_neg (ne_nil_of_name hi), hi]
    | number hne hname hn => rw [if_neg hne, idxOf?_eq_none_iff.mpr hname, hn]

theorem dash_sides {a : List Char} (h : '-' ∉ a) (b : List Char) :
    (a ++ '-' :: b).take ((a ++ '-' :: b).idxOf '-') = a ∧
      (a ++ '-' :: b).drop ((a ++ '-' :: b).idxOf '-' + 1) = b := by
  have hidx : (a ++ '-' :: b).idxOf '-' = a.length := by
    rw [idxOf_append_of_notMem h]
    simp
  rw [hidx]
  simp

theorem parseRange_ok {range : List Char} {step : Bool} {start stop : ℤ} :
    parseRange f range step = .ok (start, stop) ↔ WideRange f step range start stop := by
  unfold parseRange
  constructor
  · intro h
    split at h
    · rename_i hstar
      cases h
      subst hstar
      exact .star
    rename_i hstar
    split at h
    · rename_i hdash
      obtain ⟨a, b, rfl, hnot⟩ := eq_append_cons_of_mem hdash
      obtain ⟨m, hm, h⟩ := ok_bind_iff.mp h
      obtain ⟨n, hn, h⟩ := ok_bind_iff.mp h
      rw [(dash_sides hnot b).1] at hm
      rw [(dash_sides hnot b).2] at hn
      split at h
      · cases h
      cases h
      exact .range hnot (parseValue_ok.mp hm) (parseValue_ok.mp hn) (by omega)
    · rename_i hdash
      obtain ⟨n, hn, h⟩ := ok_bind_iff.mp h
      cases h
      exact .single hstar hdash (parseValue_ok.mp hn)
  · intro h
    cases h with
    | star => rfl
    | single hstar hdash hn =>
      rw [if_neg hstar, if_neg hdash, parseValue_ok.mpr hn]
      rfl
    | @range a b m n hdash hm hn hle =>
      have hne : a ++ '-' :: b ≠ ['*'] := by
        intro h
        have := congrArg ('-' ∈ ·) h
        simp at this
      rw [if_neg hne, if_pos (by simp)]
      dsimp only
      rw [(dash_sides hdash b).1, (dash_sides hdash b).2, parseValue_ok.mpr hm,
        parseValue_ok.mpr hn]
      exact if_neg (not_lt.mpr hle)

theorem parseStep_ok {step : ℤ} :
    parseStep f raw = .ok step ↔ numberInteger raw = some step ∧ 0 < step := by
  unfold parseStep
  split
  · rename_i n hn
    split
    · simp only [reduceCtorEq, false_iff, hn, Option.some.injEq]
      omega
    · simp only [Except.ok.injEq, hn, Option.some.injEq]
      omega
  · simp [*]

theorem WideRange.ne_nil {step : Bool} {range : List Char} {start stop : ℤ}
    (h : WideRange f step range start stop) : range ≠ [] := by
  cases h with
  | star => simp
  | single _ _ hn =>
    cases hn with
    | name hi => exact ne_nil_of_name hi
    | number hne => exact hne
  | range => simp

theorem splitOn_rest {rest : List Char} (hraw : '/' ∉ raw)
    (hrest : rest = [] ∨ ∃ more, rest = '/' :: more) :
    ∃ more, (raw ++ rest).splitOn '/' = raw :: more := by
  rcases hrest with rfl | ⟨more, rfl⟩
  · rw [append_nil, splitOn_eq_singleton hraw]
    exact ⟨[], rfl⟩
  · exact ⟨_, splitOn_append_cons_self_of_not_mem hraw more⟩

theorem exists_rest (after : List Char) :
    ∃ raw rest, after = raw ++ rest ∧ '/' ∉ raw ∧ (rest = [] ∨ ∃ more, rest = '/' :: more) := by
  by_cases hmore : '/' ∈ after
  · obtain ⟨raw, more, rfl, hraw⟩ := eq_append_cons_of_mem hmore
    exact ⟨raw, '/' :: more, rfl, hraw, .inr ⟨more, rfl⟩⟩
  · exact ⟨after, [], by simp, hmore, .inl rfl⟩

/-- **A part adds its values.** -/
theorem addPartValues_ok {result result' : Finset ℤ} : addPartValues f part result = .ok result' ↔
      ∃ V, WidePart f part V ∧ ∀ v, v ∈ result' ↔ v ∈ result ∨ v ∈ V := by
  have hturns : 0 < f.turns ∧ ∀ start, f.min ≤ start → f.max - start + 2 ≤ f.turns := by
    have := f.small
    unfold FieldSpec.turns
    constructor
    · omega
    · intro start _
      omega
  have hloop : ∀ {stop step start : ℤ}, 0 < step →
      (addValues f stop step f.turns start result = .ok result' ↔
        (∀ v, Visits stop step start v → f.min ≤ v ∧ v ≤ f.max) ∧
          ∀ v, v ∈ result' ↔ v ∈ result ∨ Visits stop step start v) :=
    fun hstep => addValues_ok hstep hturns.1 (hturns.2 _)
  unfold addPartValues
  constructor
  · intro h
    by_cases hslash : '/' ∈ part
    · obtain ⟨range, after, rfl, hrange⟩ := eq_append_cons_of_mem hslash
      obtain ⟨raw, rest, rfl, hraw, hrest⟩ := exists_rest after
      obtain ⟨more, hsplit⟩ := splitOn_rest hraw hrest
      rw [splitOn_append_cons_self_of_not_mem hrange, hsplit] at h
      dsimp only at h
      rw [if_neg (by simp)] at h
      obtain ⟨step, hstep, h⟩ := ok_bind_iff.mp h
      obtain ⟨⟨start, stop⟩, hread, h⟩ := ok_bind_iff.mp h
      obtain ⟨hnumber, hpos⟩ := parseStep_ok.mp hstep
      obtain ⟨hin, hresult⟩ := (hloop hpos).mp h
      exact ⟨_, .step hrange hraw (parseRange_ok.mp (by simpa using hread)) hnumber hpos hin hrest,
        hresult⟩
    · rw [splitOn_eq_singleton hslash] at h
      dsimp only at h
      split at h
      · cases h
      obtain ⟨step, hstep, h⟩ := ok_bind_iff.mp h
      cases hstep
      obtain ⟨⟨start, stop⟩, hread, h⟩ := ok_bind_iff.mp h
      obtain ⟨hin, hresult⟩ := (hloop one_pos).mp h
      exact ⟨_, .plain hslash (parseRange_ok.mp (by simpa using hread)) hin, hresult⟩
  · rintro ⟨V, hpart, hresult⟩
    cases hpart with
    | @plain range start stop hslash hread hin =>
      rw [splitOn_eq_singleton hslash]
      dsimp only
      rw [if_neg hread.ne_nil]
      refine ok_bind_iff.mpr ⟨1, rfl, ok_bind_iff.mpr ⟨(start, stop), ?_, ?_⟩⟩
      · simpa using parseRange_ok.mpr hread
      · exact (hloop one_pos).mpr ⟨hin, hresult⟩
    | @step range raw rest start stop step hrange hraw hread hnumber hpos hin hrest =>
      obtain ⟨more, hsplit⟩ := splitOn_rest hraw hrest
      rw [splitOn_append_cons_self_of_not_mem hrange, hsplit]
      dsimp only
      rw [if_neg (by simp)]
      refine ok_bind_iff.mpr ⟨step, parseStep_ok.mpr ⟨hnumber, hpos⟩,
        ok_bind_iff.mpr ⟨(start, stop), ?_, ?_⟩⟩
      · simpa using parseRange_ok.mpr hread
      · exact (hloop hpos).mpr ⟨hin, hresult⟩

/-! ## Fields and expressions -/

/-- A list of parts, with the values of all of them. -/
inductive CommaList (P : List Char → Set ℤ → Prop) : List Char → Set ℤ → Prop where
  | part {p V} : ',' ∉ p → P p V → CommaList P p V
  | list {p V rest W} : ',' ∉ p → P p V → CommaList P rest W →
      CommaList P (p ++ ',' :: rest) (V ∪ W)

namespace CommaList

variable {P Q : List Char → Set ℤ → Prop} {text : List Char} {V : Set ℤ}

theorem exists_of_mem (h : CommaList P text V) : ∀ p ∈ text.splitOn ',', ∃ W, P p W := by
  induction h with
  | part hcomma hp =>
    rw [splitOn_eq_singleton hcomma]
    simpa using ⟨_, hp⟩
  | list hcomma hp _ ih =>
    rw [splitOn_append_cons_self_of_not_mem hcomma]
    intro q hq
    rcases mem_cons.mp hq with rfl | hq
    · exact ⟨_, hp⟩
    · exact ih q hq

theorem mono (h : CommaList P text V) (hPQ : ∀ p ∈ text.splitOn ',', ∀ W, P p W → Q p W) :
    CommaList Q text V := by
  induction h with
  | part hcomma hp =>
    rw [splitOn_eq_singleton hcomma] at hPQ
    exact .part hcomma (hPQ _ (by simp) _ hp)
  | list hcomma hp _ ih =>
    rw [splitOn_append_cons_self_of_not_mem hcomma] at hPQ
    exact .list hcomma (hPQ _ (by simp) _ hp) (ih fun q hq => hPQ q (mem_cons_of_mem _ hq))

end CommaList

theorem WidePart.bounds {V : Set ℤ} (h : WidePart f part V) : V ⊆ Set.Icc f.min f.max := by
  cases h with
  | plain _ _ hin => exact hin
  | step _ _ _ _ _ hin => exact hin

theorem CommaList.bounds {text : List Char} {V : Set ℤ} (h : CommaList (WidePart f) text V) :
    V ⊆ Set.Icc f.min f.max := by
  induction h with
  | part _ hp => exact hp.bounds
  | list _ hp _ ih => exact Set.union_subset hp.bounds ih

theorem WidePart.exists_add {V : Set ℤ} (h : WidePart f part V)
    (result : Finset ℤ) : ∃ result' : Finset ℤ, ∀ v, v ∈ result' ↔ v ∈ result ∨ v ∈ V := by
  have hfinite : V.Finite := (Set.finite_Icc f.min f.max).subset h.bounds
  refine ⟨result ∪ hfinite.toFinset, fun v => ?_⟩
  rw [Finset.mem_union, hfinite.mem_toFinset]

theorem addParts_of_commaList {text : List Char} {V : Set ℤ} (h : CommaList (WidePart f) text V) :
    ∀ {result result' : Finset ℤ}, (∀ v, v ∈ result' ↔ v ∈ result ∨ v ∈ V) →
      addParts f (text.splitOn ',') result = .ok result' := by
  induction h with
  | part hcomma hp =>
    intro result result' hresult
    rw [splitOn_eq_singleton hcomma, addParts, ok_bind_iff]
    exact ⟨result', addPartValues_ok.mpr ⟨_, hp, hresult⟩, rfl⟩
  | list hcomma hp _ ih =>
    intro result result' hresult
    obtain ⟨middle, hmiddle⟩ := hp.exists_add result
    rw [splitOn_append_cons_self_of_not_mem hcomma, addParts, ok_bind_iff]
    refine ⟨middle, addPartValues_ok.mpr ⟨_, hp, hmiddle⟩, ih fun v => ?_⟩
    rw [hresult, hmiddle, or_assoc, Set.mem_union]

theorem commaList_of_addParts (text : List Char) {result result' : Finset ℤ}
    (h : addParts f (text.splitOn ',') result = .ok result') :
    ∃ V, CommaList (WidePart f) text V ∧ ∀ v, v ∈ result' ↔ v ∈ result ∨ v ∈ V := by
  induction hn : text.length using Nat.strong_induction_on generalizing text result with
  | _ n ih =>
  by_cases hcomma : ',' ∈ text
  · obtain ⟨p, rest, rfl, hp⟩ := eq_append_cons_of_mem hcomma
    have hlt : rest.length < n := by
      rw [← hn, length_append, length_cons]
      omega
    rw [splitOn_append_cons_self_of_not_mem hp, addParts, ok_bind_iff] at h
    obtain ⟨middle, hfirst, h⟩ := h
    obtain ⟨V, hV, hmiddle⟩ := addPartValues_ok.mp hfirst
    obtain ⟨W, hW, hresult⟩ := ih _ hlt rest h rfl
    refine ⟨V ∪ W, .list hp hV hW, fun v => ?_⟩
    rw [hresult, hmiddle, or_assoc, Set.mem_union]
  · rw [splitOn_eq_singleton hcomma, addParts, ok_bind_iff] at h
    obtain ⟨_, hfirst, h⟩ := h
    cases h
    obtain ⟨V, hV, hresult⟩ := addPartValues_ok.mp hfirst
    exact ⟨V, .part hcomma hV, hresult⟩

/-- **A field is a list of parts.** -/
theorem parseField_ok {text : List Char} {values : Finset ℤ} :
    parseField f text = .ok values ↔ CommaList (WidePart f) text values := by
  constructor
  · intro h
    obtain ⟨V, hV, hvalues⟩ := commaList_of_addParts text h
    have heq : (values : Set ℤ) = V := by
      ext v
      simpa using hvalues v
    rwa [heq]
  · intro h
    exact addParts_of_commaList h (by simp)

end

/-- A day of the week as the matcher sees it. -/
def sundayZero (v : ℤ) : ℤ := if v = 7 then 0 else v

theorem coe_normalizeDayOfWeek (values : Finset ℤ) :
    (normalizeDayOfWeek values : Set ℤ) = sundayZero '' values := by
  ext v
  simp only [normalizeDayOfWeek, sundayZero, Set.mem_image, Finset.mem_coe]
  split
  · rename_i h
    simp only [Finset.mem_insert, Finset.mem_erase]
    constructor
    · rintro (rfl | ⟨hne, hv⟩)
      · exact ⟨7, h, rfl⟩
      · exact ⟨v, hv, if_neg hne⟩
    · rintro ⟨w, hw, rfl⟩
      split
      · exact .inl rfl
      · exact .inr ⟨by assumption, hw⟩
  · rename_i h
    constructor
    · intro hv
      exact ⟨v, hv, if_neg (ne_of_mem_of_not_mem hv h)⟩
    · rintro ⟨w, hw, rfl⟩
      rwa [if_neg (ne_of_mem_of_not_mem hw h)]

/-- The sets of five fields, each a list of parts. -/
structure FieldsDenote (P : FieldSpec → List Char → Set ℤ → Prop)
    (minuteField hourField dayOfMonthField monthField dayOfWeekField : List Char)
    (parsed : ParsedCron) : Prop where
  minute : CommaList (P .minute) minuteField parsed.minute
  hour : CommaList (P .hour) hourField parsed.hour
  dayOfMonth : CommaList (P .dayOfMonth) dayOfMonthField parsed.dayOfMonth
  month : CommaList (P .month) monthField parsed.month
  dayOfWeek : ∃ days, CommaList (P .dayOfWeek) dayOfWeekField days ∧
    (parsed.dayOfWeek : Set ℤ) = sundayZero '' days
  dayOfMonthRestricted : parsed.dayOfMonthRestricted = true ↔ dayOfMonthField ≠ ['*']
  dayOfWeekRestricted : parsed.dayOfWeekRestricted = true ↔ dayOfWeekField ≠ ['*']

/-- Five fields between white space. -/
def Denotes (P : FieldSpec → List Char → Set ℤ → Prop) (text : List Char) (parsed : ParsedCron) :
    Prop :=
  ∃ minute hour dayOfMonth month dayOfWeek,
    splitSpaces text = [minute, hour, dayOfMonth, month, dayOfWeek] ∧
      FieldsDenote P minute hour dayOfMonth month dayOfWeek parsed

def partsOf (text : List Char) : List (FieldSpec × List Char) :=
  (List.zip [.minute, .hour, .dayOfMonth, .month, .dayOfWeek] (splitSpaces text)).flatMap
    fun field => (field.2.splitOn ',').map fun part => (field.1, part)

section
variable {P Q : FieldSpec → List Char → Set ℤ → Prop} {text : List Char} {parsed : ParsedCron}

theorem Denotes.mono (h : Denotes P text parsed)
    (hPQ : ∀ p ∈ partsOf text, ∀ V, P p.1 p.2 V → Q p.1 p.2 V) : Denotes Q text parsed := by
  obtain ⟨minute, hour, dayOfMonth, month, dayOfWeek, hsplit, hfields⟩ := h
  have hpart : ∀ f field, (f, field) ∈ List.zip [.minute, .hour, .dayOfMonth, .month, .dayOfWeek]
      (splitSpaces text) → ∀ part ∈ field.splitOn ',', ∀ V, P f part V → Q f part V := by
    intro f field hfield part hpart
    exact hPQ (f, part) (mem_flatMap.mpr ⟨_, hfield, mem_map_of_mem hpart⟩)
  rw [hsplit] at hpart
  obtain ⟨days, hdays, heq⟩ := hfields.dayOfWeek
  exact ⟨minute, hour, dayOfMonth, month, dayOfWeek, hsplit,
    { minute := hfields.minute.mono (hpart _ _ (by simp))
      hour := hfields.hour.mono (hpart _ _ (by simp))
      dayOfMonth := hfields.dayOfMonth.mono (hpart _ _ (by simp))
      month := hfields.month.mono (hpart _ _ (by simp))
      dayOfWeek := ⟨days, hdays.mono (hpart _ _ (by simp)), heq⟩
      dayOfMonthRestricted := hfields.dayOfMonthRestricted
      dayOfWeekRestricted := hfields.dayOfWeekRestricted }⟩

theorem Denotes.exists_of_mem (h : Denotes P text parsed) :
    ∀ p ∈ partsOf text, ∃ V, P p.1 p.2 V := by
  obtain ⟨minute, hour, dayOfMonth, month, dayOfWeek, hsplit, hfields⟩ := h
  obtain ⟨days, hdays, -⟩ := hfields.dayOfWeek
  rintro ⟨f, part⟩ hmem
  obtain ⟨⟨f, field⟩, hfield, hpart⟩ := mem_flatMap.mp hmem
  obtain ⟨part, hpart, heq⟩ := mem_map.mp hpart
  cases heq
  rw [hsplit] at hfield
  simp only [zip_cons_cons, zip_nil_right, mem_cons, not_mem_nil, or_false] at hfield
  rcases hfield with ⟨rfl, rfl⟩ | ⟨rfl, rfl⟩ | ⟨rfl, rfl⟩ | ⟨rfl, rfl⟩ | ⟨rfl, rfl⟩
  · exact hfields.minute.exists_of_mem _ hpart
  · exact hfields.hour.exists_of_mem _ hpart
  · exact hfields.dayOfMonth.exists_of_mem _ hpart
  · exact hfields.month.exists_of_mem _ hpart
  · exact hdays.exists_of_mem _ hpart

end

section
variable {toLowerCase : String → String} {expression : String} {parsed : ParsedCron}

/-- The text that is read: that of a shortcut, or the expression itself. -/
def expansion (toLowerCase : String → String) (expression : String) : List Char :=
  let trimmed := toLowerCase (trim expression)
  ((SHORTCUTS.lookup trimmed).getD trimmed).toList

/-- An expression that `P` gives a meaning to. -/
structure Meaning (P : FieldSpec → List Char → Set ℤ → Prop) (toLowerCase : String → String)
    (expression : String) (parsed : ParsedCron) : Prop where
  nonblank : trim expression ≠ ""
  denotes : Denotes P (expansion toLowerCase expression) parsed
  expression : parsed.expression = expression

theorem splitSpaces_inherited : ∀ key ∈ inheritedKeys, (splitSpaces key.toList).length = 1 := by
  decide

theorem expand_ok {trimmed expanded : String} :
    expand trimmed = .ok expanded ↔
      expanded = (SHORTCUTS.lookup trimmed).getD trimmed ∧
        (trimmed ∈ inheritedKeys → (SHORTCUTS.lookup trimmed).isSome) := by
  unfold expand
  cases SHORTCUTS.lookup trimmed with
  | some text => simp [eq_comm]
  | none =>
    by_cases hkey : trimmed ∈ inheritedKeys
    · simp [hkey]
    · simp [hkey, eq_comm]

/-- **What `parseCronExpression` accepts, and what it returns.** -/
theorem parseCronExpression_ok :
    parseCronExpression toLowerCase expression = .ok parsed ↔
      Meaning WidePart toLowerCase expression parsed := by
  unfold parseCronExpression
  constructor
  · intro h
    split at h
    · cases h
    rename_i hblank
    obtain ⟨expanded, hexpand, h⟩ := ok_bind_iff.mp h
    obtain ⟨rfl, -⟩ := expand_ok.mp hexpand
    split at h
    · rename_i minuteField hourField dayOfMonthField monthField dayOfWeekField hsplit
      obtain ⟨minute, hminute, h⟩ := ok_bind_iff.mp h
      obtain ⟨hour, hhour, h⟩ := ok_bind_iff.mp h
      obtain ⟨dayOfMonth, hdayOfMonth, h⟩ := ok_bind_iff.mp h
      obtain ⟨month, hmonth, h⟩ := ok_bind_iff.mp h
      obtain ⟨dayOfWeek, hdayOfWeek, h⟩ := ok_bind_iff.mp h
      cases h
      refine ⟨hblank, ⟨_, _, _, _, _, hsplit, ?_⟩, rfl⟩
      exact
        { minute := parseField_ok.mp hminute
          hour := parseField_ok.mp hhour
          dayOfMonth := parseField_ok.mp hdayOfMonth
          month := parseField_ok.mp hmonth
          dayOfWeek := ⟨_, parseField_ok.mp hdayOfWeek, coe_normalizeDayOfWeek _⟩
          dayOfMonthRestricted := by simp
          dayOfWeekRestricted := by simp }
    · cases h
  · rintro ⟨hblank, ⟨minuteField, hourField, dayOfMonthField, monthField, dayOfWeekField, hsplit,
      hfields⟩, rfl⟩
    obtain ⟨minute, hour, dayOfMonth, month, dayOfWeek, dayOfMonthRestricted, dayOfWeekRestricted,
      expression⟩ := parsed
    obtain ⟨hminute, hhour, hdayOfMonth, hmonth, ⟨days, hdays, hdayOfWeek⟩, hrestricted,
      hrestricted'⟩ := hfields
    have hexpand : expand (toLowerCase (trim expression)) =
        .ok ((SHORTCUTS.lookup (toLowerCase (trim expression))).getD
          (toLowerCase (trim expression))) := by
      refine expand_ok.mpr ⟨rfl, fun hkey => ?_⟩
      by_contra hnone
      have hone := splitSpaces_inherited _ hkey
      rw [expansion] at hsplit
      rw [Option.not_isSome_iff_eq_none.mp hnone, Option.getD_none] at hsplit
      rw [hsplit] at hone
      cases hone
    have hfinite : days.Finite := (Set.finite_Icc _ _).subset (CommaList.bounds hdays)
    rw [if_neg hblank, hexpand]
    rw [expansion] at hsplit
    rw [← hfinite.coe_toFinset] at hdays hdayOfWeek
    have hnormal : normalizeDayOfWeek hfinite.toFinset = dayOfWeek := by
      rw [← Finset.coe_inj, coe_normalizeDayOfWeek, hdayOfWeek]
    have hflag : ∀ {flag : Bool} {p : Prop} [Decidable p], (flag = true ↔ p) → decide p = flag := by
      intro flag p _ h
      rw [Bool.eq_iff_iff, decide_eq_true_iff, h]
    simp only [ok_bind, hsplit, parseField_ok.mpr hminute, parseField_ok.mpr hhour,
      parseField_ok.mpr hdayOfMonth, parseField_ok.mpr hmonth, parseField_ok.mpr hdays, hnormal,
      hflag hrestricted, hflag hrestricted']

end

end Velocious.CronExpression
