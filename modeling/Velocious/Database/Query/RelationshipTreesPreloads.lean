/-
  The trees of preload descriptors, and what both normalizers keep.

  * `deepMerge`: a plain object is merged into a plain object, and anything else replaces what was
    there.
  * `preload_keeps`: the tree of some calls has all their paths, in any
    arrangement, exactly where no path that is written with nothing below it is one that goes on.
-/
import Velocious.Database.Query.RelationshipTreesJoins

namespace Velocious.RelationshipTrees

open Foundation List

/-! ## Merging -/

def deepMerge (incorporate : Fields → Fields → Fields) : Option Json → Option Json → Option Json
  | existing, none => existing
  | some (.obj existing), some (.obj incoming) => some (.obj (incorporate existing incoming))
  | _, some incoming => some incoming

/-- `incorporate` merges plain objects deeply. -/
def MergesDeeply (incorporate : Fields → Fields → Fields) : Prop :=
  ∀ t r, Distinct t → Distinct r → Merged (deepMerge incorporate) t r (incorporate t r)

section Merging

variable {incorporate : Fields → Fields → Fields}

variable (incorporate) in
theorem deepMerge_cases (a b : Option Json) :
    (b = none ∧ deepMerge incorporate a b = a) ∨
    (∃ x y, a = some (.obj x) ∧ b = some (.obj y) ∧
      deepMerge incorporate a b = some (.obj (incorporate x y))) ∨
    (∃ v, b = some v ∧ deepMerge incorporate a b = some v ∧
      ∀ x y, a = some (.obj x) → v ≠ .obj y) := by
  rcases b with - | v
  · exact .inl ⟨rfl, by rcases a with - | u <;> rfl⟩
  · by_cases h : ∃ x y, a = some (.obj x) ∧ v = .obj y
    · obtain ⟨x, y, rfl, rfl⟩ := h
      exact .inr (.inl ⟨x, y, rfl, rfl, rfl⟩)
    · refine .inr (.inr ⟨v, rfl, ?_, fun x y hx hy => h ⟨x, y, hx, hy⟩⟩)
      rcases a with - | u
      · cases v <;> rfl
      · cases u <;> first | rfl | cases v <;> first | rfl | exact absurd ⟨_, _, rfl, rfl⟩ h

theorem normal_incorporate (hi : MergesDeeply incorporate) {d : Json} (hr : Normal d) :
    ∀ {t r : Fields}, d = .obj r → Normal (.obj t) → Normal (.obj (incorporate t r)) := by
  induction hr with
  | flag => exact fun h => by cases h
  | @tree r' hdistinct hvalues ih =>
    intro t r h ht
    cases h
    have hmerged := hi t r' ht.distinct hdistinct
    refine normal_of_lookup hmerged.distinct fun s v hv => ?_
    rw [hmerged.lookup] at hv
    rcases deepMerge_cases incorporate (t.lookup s) (r'.lookup s) with
      ⟨-, heq⟩ | ⟨x, y, hx, hy, heq⟩ | ⟨w, hw, heq, -⟩
    · rw [heq] at hv
      exact ht.value hv
    · rw [heq] at hv
      cases hv
      exact ih s _ ((mem_iff_lookup hdistinct).2 hy) rfl (ht.value hx)
    · rw [heq] at hv
      cases hv
      exact hvalues s _ ((mem_iff_lookup hdistinct).2 hw)

theorem lawful_preloading (hi : MergesDeeply incorporate) :
    Lawful (preloading incorporate) (deepMerge incorporate) where
  addField t s v hs := setField_of_not_mem hs
  addName t s ht := by
    refine ⟨distinct_setField ht, fun s' => ?_⟩
    simp only [preloading, lookup_setField, lookup_cons]
    by_cases h : s' = s
    · simp only [h]
      rcases t.lookup s with - | u
      · rfl
      · cases u <;> rfl
    · rw [if_neg h, if_neg h]
      rcases t.lookup s' with - | u
      · rfl
      · cases u <;> rfl
  addRecord t r ht hr := hi t r ht hr
  normal a b v ha hb h := by
    rcases deepMerge_cases incorporate a b with
      ⟨-, heq⟩ | ⟨x, y, hx, hy, heq⟩ | ⟨w, hw, heq, -⟩
    · exact ha v (heq.symm.trans h)
    · cases heq.symm.trans h
      exact normal_incorporate hi (hb _ hy) rfl (ha _ hx)
    · cases heq.symm.trans h
      exact hb _ hw

section Paths

variable (hi : MergesDeeply incorporate) {t r t' : Fields}
  (h : Merged (deepMerge incorporate) t r t') (ht : Normal (.obj t)) (hr : Normal (.obj r))

include hi h ht hr

theorem bare_incorporate_le {p : List String} (hp : Bare (.obj t') p) :
    Bare (.obj t) p ∨ Bare (.obj r) p := by
  induction p generalizing t r t' with
  | nil => exact absurd rfl hp.writes.ne_nil
  | cons s p ih =>
    rw [bare_tree ht.distinct, bare_tree hr.distinct]
    obtain ⟨w, hw, hp⟩ := (bare_tree h.distinct).1 hp
    rw [h.lookup] at hw
    rcases deepMerge_cases incorporate (t.lookup s) (r.lookup s) with
      ⟨-, heq⟩ | ⟨x, y, hx, hy, heq⟩ | ⟨v, hv, heq, -⟩
    · exact .inl ⟨w, heq.symm.trans hw, hp⟩
    · cases heq.symm.trans hw
      rcases hp with ⟨-, hflag⟩ | hp
      · cases hflag
      · have hxn := ht.value hx
        have hyn := hr.value hy
        rcases ih (hi x y hxn.distinct hyn.distinct) hxn hyn hp with hp | hp
        · exact .inl ⟨_, hx, .inr hp⟩
        · exact .inr ⟨_, hy, .inr hp⟩
    · obtain rfl := Option.some.inj (heq.symm.trans hw)
      exact .inr ⟨v, hv, hp⟩

theorem bare_incorporate_of_right {p : List String} (hp : Bare (.obj r) p) : Bare (.obj t') p := by
  induction p generalizing t r t' with
  | nil => exact absurd rfl hp.writes.ne_nil
  | cons s p ih =>
    rw [bare_tree h.distinct, h.lookup]
    obtain ⟨w, hw, hp⟩ := (bare_tree hr.distinct).1 hp
    rcases deepMerge_cases incorporate (t.lookup s) (r.lookup s) with
      ⟨hnone, -⟩ | ⟨x, y, hx, hy, heq⟩ | ⟨v, hv, heq, -⟩
    · rw [hw] at hnone
      cases hnone
    · cases hw.symm.trans hy
      rcases hp with ⟨-, hflag⟩ | hp
      · cases hflag
      · have hxn := ht.value hx
        have hyn := hr.value hy
        exact ⟨_, heq, .inr (ih (hi x y hxn.distinct hyn.distinct) hxn hyn hp)⟩
    · cases hw.symm.trans hv
      exact ⟨_, heq, hp⟩

theorem writes_incorporate (htr : ∀ q c, Bare (.obj t) q → ¬ Writes (.obj r) (q ++ [c]))
    (hrt : ∀ q c, Bare (.obj r) q → ¬ Writes (.obj t) (q ++ [c])) (p : List String) :
    Writes (.obj t') p ↔ Writes (.obj t) p ∨ Writes (.obj r) p := by
  induction p generalizing t r t' with
  | nil =>
    exact ⟨fun h => absurd rfl h.ne_nil, fun h => absurd rfl (h.elim Writes.ne_nil Writes.ne_nil)⟩
  | cons s p ih =>
    rw [writes_tree h.distinct, writes_tree ht.distinct, writes_tree hr.distinct]
    simp only [h.lookup]
    rcases deepMerge_cases incorporate (t.lookup s) (r.lookup s) with
      ⟨hnone, heq⟩ | ⟨x, y, hx, hy, heq⟩ | ⟨v, hv, heq, hno⟩
    · simp only [heq]
      simp [hnone]
    · have hxn := ht.value hx
      have hyn := hr.value hy
      have hrec := ih (hi x y hxn.distinct hyn.distinct) hxn hyn
        (fun q c hq hw => htr (s :: q) c ((bare_tree ht.distinct).2 ⟨_, hx, .inr hq⟩)
          ((writes_tree hr.distinct).2 ⟨_, hy, .inr hw⟩))
        fun q c hq hw => hrt (s :: q) c ((bare_tree hr.distinct).2 ⟨_, hy, .inr hq⟩)
          ((writes_tree ht.distinct).2 ⟨_, hx, .inr hw⟩)
      simp only [heq]
      simp only [hx, hy, Option.some.injEq, exists_eq_left']
      tauto
    · simp only [heq]
      constructor
      · rintro ⟨w, hw, hp⟩
        exact .inr ⟨w, hv.trans hw, hp⟩
      · rintro (⟨w, hw, hp⟩ | ⟨w, hw, hp⟩)
        · refine ⟨v, rfl, hp.imp_right fun hp => ?_⟩
          -- what was there is a tree that goes on, so a flag comes in
          obtain ⟨c, q, rfl⟩ := exists_cons_of_ne_nil hp.ne_nil
          have hflag : isFlag v = true := by
            have hwn := ht.value hw
            have hvn := hr.value hv
            cases hwn with
            | flag => cases hp
            | tree =>
              cases hvn with
              | flag => rfl
              | tree => exact absurd rfl (hno _ _ hw)
          have hbare : Bare (.obj r) [s] := (bare_tree hr.distinct).2 ⟨v, hv, .inl ⟨rfl, hflag⟩⟩
          exact absurd ((writes_tree ht.distinct).2 ⟨w, hw, .inr hp.head⟩) (hrt [s] c hbare)
        · exact ⟨w, hv.symm.trans hw, hp⟩

end Paths

/-! ## Descriptors -/

/-- No path goes on below one that is written with nothing below it. -/
def PreloadConsistent (d : Json) : Prop := ∀ q c, Bare d q → ¬ Writes d (q ++ [c])

theorem PreloadConsistent.of_snoc {entries : List Json} {e : Json}
    (h : PreloadConsistent (.arr (entries ++ [e]))) :
    PreloadConsistent (.arr entries) ∧ PreloadConsistent e := by
  refine ⟨fun q c hq hw => ?_, fun q c hq hw => h q c (.entry (by simp) hq) (.entry (by simp) hw)⟩
  obtain ⟨x, hx, hq⟩ := bare_arr.1 hq
  obtain ⟨y, hy, hw⟩ := writes_arr.1 hw
  exact h q c (.entry (by simp [hx]) hq) (.entry (by simp [hy]) hw)

section Descriptors

variable (hi : MergesDeeply incorporate)

include hi

theorem keeps_snoc {entries : List Json} {e : Json} {t r t' : Fields}
    (hc : PreloadConsistent (.arr (entries ++ [e]))) (ht : Keeps t (.arr entries)) (hr : Keeps r e)
    (hmerged : Merged (deepMerge incorporate) t r t') : Keeps t' (.arr (entries ++ [e])) where
  normal := hmerged.normal (lawful_preloading hi) ht.normal hr.normal
  writes p := by
    rw [writes_incorporate hi hmerged ht.normal hr.normal, ht.writes, hr.writes, writes_arr,
      writes_arr]
    · simp
    · intro q c hq hw
      obtain ⟨x, hx, hq⟩ := bare_arr.1 (ht.bare q hq)
      exact hc q c (.entry (by simp [hx]) hq) (.entry (by simp) ((hr.writes _).1 hw))
    · intro q c hq hw
      obtain ⟨y, hy, hw⟩ := writes_arr.1 ((ht.writes _).1 hw)
      exact hc q c (.entry (by simp) (hr.bare q hq)) (.entry (by simp [hy]) hw)
  bare p hp := by
    rw [bare_arr]
    rcases bare_incorporate_le hi hmerged ht.normal hr.normal hp with hp | hp
    · obtain ⟨x, hx, hp⟩ := bare_arr.1 (ht.bare p hp)
      exact ⟨x, by simp [hx], hp⟩
    · exact ⟨e, by simp, hr.bare p hp⟩

theorem preload_keeps {d : Json} (hd : Descriptor d) (hc : PreloadConsistent d) :
    ∃ t, normalizePreloadRecord incorporate d = .ok t ∧ Keeps t d := by
  have hlaw := lawful_preloading hi
  induction hd with
  | @name s hs =>
    -- a name has one tree, whatever it is normalized for
    obtain ⟨t, ht, hkeeps⟩ := join_keeps (.name hs) .name
    refine ⟨t, ?_, hkeeps⟩
    rw [normalizeJoinObject, normalize] at ht
    rw [normalizePreloadRecord, normalize, ht]
  | @array entries hentries harrays ih =>
    induction entries using List.reverseRecOn with
    | nil => exact ⟨[], rfl, keeps_nil⟩
    | append_singleton entries e hind =>
      obtain ⟨hbefore, hlast⟩ := hc.of_snoc
      obtain ⟨t, ht, htk⟩ := hind (fun x hx => hentries x (by simp [hx]))
        (fun x hx => harrays x (by simp [hx])) (fun x hx => ih x (by simp [hx])) hbefore
      obtain ⟨r, hr, hrk⟩ := ih e (by simp) hlast
      obtain ⟨t', ht', hmerged⟩ := normalize_snoc hlaw (hentries e (by simp))
        (harrays e (by simp)) ht hr htk.normal.distinct hrk.normal.distinct
      exact ⟨t', ht', keeps_snoc hi hc htk hrk hmerged⟩
  | @object fields hdistinct hfields ih =>
    obtain ⟨t, ht, htn, hft⟩ := normalize_object_ok hlaw (.object hdistinct hfields)
    have hvalues (s : String) (d : Json) (tree : Fields) (hmem : (s, d) ∈ fields)
        (hflag : isFlag d = false) (htree : normalize (preloading incorporate) d = .ok tree) :
        Keeps tree d := by
      obtain ⟨tree', htree', hkeeps⟩ := ih s d hmem hflag fun q c hq hw =>
        hc (s :: q) c (.nested hmem hq) (.nested hmem hw)
      cases htree.symm.trans htree'
      exact hkeeps
    exact ⟨t, ht, keeps_object htn hdistinct.1 hft hvalues⟩

theorem exists_bare {d : Json} (hd : Descriptor d) {q : List String} (hq : Bare d q) :
    ∃ d', Rearrangement d d' ∧ ∃ t, normalizePreloadRecord incorporate d' = .ok t ∧
      Bare (.obj t) q := by
  have hlaw := lawful_preloading hi
  induction hd generalizing q with
  | @name s hs =>
    obtain ⟨t, ht, htn⟩ := normalize_ok hlaw (.name hs)
    obtain ⟨b, hb⟩ := flag_of_bare hlaw (.name hs) rfl ht .name
    cases hq
    exact ⟨_, .refl, t, ht, (bare_tree htn.distinct).2 ⟨_, hb, .inl ⟨rfl, rfl⟩⟩⟩
  | @array entries hentries harrays ih =>
    obtain ⟨e, he, hq⟩ := bare_arr.1 hq
    obtain ⟨e', hmove, r, hr, hbare⟩ := ih e he hq
    have he' := hmove.descriptor (hentries e he)
    obtain ⟨t, ht, htn⟩ := normalize_ok hlaw (.array hentries harrays)
    obtain ⟨r', hr', hrn⟩ := normalize_ok hlaw he'
    cases hr.symm.trans hr'
    obtain ⟨t', ht', hmerged⟩ := normalize_snoc hlaw he' (hmove.isArray.trans (harrays e he)) ht hr
      htn.distinct hrn.distinct
    exact ⟨_, .last he hmove, t', ht', bare_incorporate_of_right hi hmerged htn hrn hbare⟩
  | @object fields hdistinct hfields ih =>
    cases q with
    | nil => exact absurd rfl hq.writes.ne_nil
    | cons s q =>
      obtain ⟨d, hmem, ⟨rfl, hflag⟩ | hq⟩ := bare_obj.1 hq
      · obtain ⟨t, ht, htn, hft⟩ := normalize_object_ok hlaw (.object hdistinct hfields)
        obtain ⟨v, hv, hfield⟩ := lookup_of_fieldOf hft hdistinct.1 hmem
        refine ⟨_, .refl, t, ht, (bare_tree htn.distinct).2 ⟨v, hv, .inl ⟨rfl, ?_⟩⟩⟩
        cases hfield with
        | flag => rfl
        | tree hflag' => exact absurd hflag (by simp [hflag'])
      · have hflag : isFlag d = false := by
          cases d with
          | bool => cases hq
          | _ => rfl
        obtain ⟨d', hmove, tree, htree, hbare⟩ := ih s d hmem hflag hq
        obtain ⟨before, after, rfl⟩ := append_of_mem hmem
        have hobj : Rearrangement (.obj (before ++ (s, d) :: after))
            (.obj (before ++ (s, d') :: after)) := .field hmove
        obtain ⟨t, ht, htn, hft⟩ :=
          normalize_object_ok hlaw (hobj.descriptor (.object hdistinct hfields))
        have hdistinct' : Distinct (before ++ (s, d') :: after) := by
          simpa [Distinct] using hdistinct.1
        obtain ⟨v, hv, hfield⟩ := lookup_of_fieldOf hft hdistinct' (s := s) (d := d') (by simp)
        refine ⟨_, hobj, t, ht, (bare_tree htn.distinct).2 ⟨v, hv, .inr ?_⟩⟩
        cases hfield with
        | flag =>
          have := hmove.isFlag
          rw [hflag] at this
          cases this
        | tree _ _ htree' =>
          cases htree.symm.trans htree'
          exact hbare

variable {calls : List Json}

omit hi in
theorem preloadCalls_snoc {d : Json} {t r : Fields} (ht : preloadCalls incorporate calls = .ok t)
    (hr : normalizePreloadRecord incorporate d = .ok r) :
    preloadCalls incorporate (calls ++ [d]) = .ok (incorporate t r) := by
  rw [preloadCalls] at ht
  rw [preloadCalls, foldlM_append, ht]
  simp [Bind.bind, Except.bind, hr, Except.map, Pure.pure, Except.pure]

section
variable (hcalls : ∀ d ∈ calls, Descriptor d)
include hcalls

theorem preloadCalls_ok :
    ∃ t, preloadCalls incorporate calls = .ok t ∧ Normal (.obj t) := by
  induction calls using List.reverseRecOn with
  | nil => exact ⟨[], rfl, .tree nodup_nil fun _ _ hmem => (by cases hmem)⟩
  | append_singleton calls d ih =>
    obtain ⟨t, ht, htn⟩ := ih fun x hx => hcalls x (by simp [hx])
    obtain ⟨r, hr, hrn⟩ := normalize_ok (lawful_preloading hi) (hcalls d (by simp))
    exact ⟨_, preloadCalls_snoc ht hr, normal_incorporate hi hrn rfl htn⟩

theorem preloadCalls_keeps (hc : PreloadConsistent (.arr calls)) :
    ∃ t, preloadCalls incorporate calls = .ok t ∧ Keeps t (.arr calls) := by
  induction calls using List.reverseRecOn with
  | nil => exact ⟨[], rfl, keeps_nil⟩
  | append_singleton calls d ih =>
    obtain ⟨hbefore, hlast⟩ := hc.of_snoc
    obtain ⟨t, ht, htk⟩ := ih (fun x hx => hcalls x (by simp [hx])) hbefore
    obtain ⟨r, hr, hrk⟩ := preload_keeps hi (hcalls d (by simp)) hlast
    exact ⟨_, preloadCalls_snoc ht hr,
      keeps_snoc hi hc htk hrk (hi t r htk.normal.distinct hrk.normal.distinct)⟩

theorem preloadCalls_loses (hc : ¬ PreloadConsistent (.arr calls)) :
    ∃ calls', Rearrangement (.arr calls) (.arr calls') ∧
      ∃ t, preloadCalls incorporate calls' = .ok t ∧
        ∃ p, Writes (.arr calls) p ∧ ¬ Writes (.obj t) p := by
  simp only [PreloadConsistent, not_forall, not_not] at hc
  obtain ⟨q, c, hq, hw⟩ := hc
  obtain ⟨d, hd, hq⟩ := bare_arr.1 hq
  obtain ⟨d', hmove, r, hr, hbare⟩ := exists_bare hi (hcalls d hd) hq
  obtain ⟨r', hr', hrn⟩ := normalize_ok (lawful_preloading hi) (hmove.descriptor (hcalls d hd))
  cases hr.symm.trans hr'
  obtain ⟨t, ht, htn⟩ := preloadCalls_ok hi hcalls
  have hmerged := hi t r htn.distinct hrn.distinct
  exact ⟨_, .last hd hmove, _, preloadCalls_snoc ht hr, _, hw,
    not_writes_below_bare (normal_incorporate hi hrn rfl htn)
      (bare_incorporate_of_right hi hmerged htn hrn hbare) c⟩

end

end Descriptors

end Merging

/-! ## What is kept -/

/-- The trees of a join descriptor have its paths, in whatever order its entries are written and
    however often, and are their own trees. -/
def KeepsPaths (d : Json) : Prop :=
  ∀ d', Rearrangement d d' → ∃ t, normalizeJoinObject d' = .ok t ∧
    (∀ p, Writes (.obj t) p ↔ Writes d p) ∧ normalizeJoinObject (.obj t) = .ok t

/-- The same for the descriptors of successive calls of `preload`. -/
def KeepsCalls (incorporate : Fields → Fields → Fields) (calls : List Json) : Prop :=
  ∀ calls', Rearrangement (.arr calls) (.arr calls') →
    ∃ t, preloadCalls incorporate calls' = .ok t ∧ normalizeNestedPreload (.obj t) = .ok (some t) ∧
      (∀ p, Writes (.obj t) p ↔ Writes (.arr calls) p) ∧
      normalizePreloadRecord incorporate (.obj t) = .ok t

theorem keepsPaths_iff {d : Json} (hd : Descriptor d) : KeepsPaths d ↔ JoinConsistent d := by
  constructor
  · intro h
    refine joinConsistent_of_not_loses hd ?_
    rintro ⟨d', hmove, t, ht, p, hp, hlost⟩
    obtain ⟨t', ht', hw, -⟩ := h d' hmove
    cases ht.symm.trans ht'
    exact hlost ((hw p).2 hp)
  · intro hc d' hmove
    obtain ⟨t, ht, hkeeps⟩ := join_keeps (hmove.descriptor hd) (hmove.joinConsistent hc)
    exact ⟨t, ht, fun p => (hkeeps.writes p).trans (hmove.writes p),
      normalize_normal lawful_joining hkeeps.normal⟩

theorem keepsCalls_iff {incorporate : Fields → Fields → Fields} (hi : MergesDeeply incorporate)
    {calls : List Json} (hcalls : ∀ d ∈ calls, Descriptor d) :
    KeepsCalls incorporate calls ↔ PreloadConsistent (.arr calls) := by
  constructor
  · intro h
    by_contra hc
    obtain ⟨calls', hmove, t, ht, p, hp, hlost⟩ := preloadCalls_loses hi hcalls hc
    obtain ⟨t', ht', -, hw, -⟩ := h calls' hmove
    cases ht.symm.trans ht'
    exact hlost ((hw p).2 hp)
  · intro hc calls' hmove
    obtain ⟨_, heq, hcalls'⟩ := Rearrangement.entries hmove hcalls
    cases heq
    obtain ⟨t, ht, hkeeps⟩ := preloadCalls_keeps hi hcalls' fun q c hq hp =>
      hc q c ((hmove.bare q).1 hq) ((hmove.writes _).1 hp)
    exact ⟨t, ht, normalizeNestedPreload_normal hkeeps.normal,
      fun p => (hkeeps.writes p).trans (hmove.writes p),
      normalize_normal (lawful_preloading hi) hkeeps.normal⟩

/-- **Descriptors keep their paths** exactly where they are consistent: for joins, no two entries of
    an array write a relationship differently; for preloads, no path is written with nothing below
    it and with something. -/
theorem descriptors_keep_paths {incorporate : Fields → Fields → Fields}
    (hi : MergesDeeply incorporate) {d : Json} (hd : Descriptor d) {calls : List Json}
    (hcalls : ∀ d ∈ calls, Descriptor d) :
    (KeepsPaths d ↔ JoinConsistent d) ∧
      (KeepsCalls incorporate calls ↔ PreloadConsistent (.arr calls)) :=
  ⟨keepsPaths_iff hd, keepsCalls_iff hi hcalls⟩

mutual

def mergeInto (t : Fields) : Fields → Fields
  | [] => t
  | (s, v) :: r => mergeInto (setField s (mergeValue (t.lookup s) v) t) r

def mergeValue : Option Json → Json → Json
  | some (.obj t), .obj r => .obj (mergeInto t r)
  | _, v => v

end

theorem deepMerge_mergeInto (existing : Option Json) (v : Json) :
    deepMerge mergeInto existing (some v) = some (mergeValue existing v) := by
  rcases existing with - | u
  · cases v <;> simp [mergeValue, deepMerge]
  · cases u <;> cases v <;> simp [mergeValue, deepMerge]

theorem mergesDeeply_mergeInto : MergesDeeply mergeInto := by
  intro t r ht hr
  induction r generalizing t with
  | nil => exact ⟨by rwa [mergeInto], fun s => by rw [mergeInto]; cases t.lookup s <;> rfl⟩
  | cons field r ih =>
    obtain ⟨s, v⟩ := field
    obtain ⟨hs, hr⟩ := nodup_cons.1 hr
    obtain ⟨hdistinct, hlookup⟩ :=
      ih _ (distinct_setField (k := s) (v := mergeValue (t.lookup s) v) ht) hr
    refine ⟨by rwa [mergeInto], fun s' => ?_⟩
    rw [mergeInto, hlookup, lookup_cons, lookup_setField]
    by_cases h : s' = s
    · subst h
      rw [if_pos rfl, if_pos rfl, lookup_eq_none hs, deepMerge_mergeInto]
      rfl
    · rw [if_neg h, if_neg h]

/-- `Task.joins({project: ["account", "tasks"]})`, and two calls of `preload` -/
theorem descriptors_keep_paths_task :
    KeepsPaths (.obj [("project", .arr [.str "account", .str "tasks"])]) ∧
      KeepsCalls mergeInto [.obj [("project", .str "account")], .obj [("project", .str "tasks")]] := by
  have hname (s : String) (hs : s ≠ "" ∧ s ≠ "__proto__") :
      Descriptor (.obj [("project", .str s)]) :=
    .object (by simp) fun _ _ hmem _ => by
      cases mem_singleton.1 hmem
      exact .name hs
  have hpath (s : String) {p : List String} (hp : Writes (.obj [("project", .str s)]) p) :
      p.length ≤ 2 := by
    rcases hp with _ | _ | _ | ⟨hmem, hp⟩
    · simp
    · cases mem_singleton.1 hmem
      cases hp
      simp
  have hbare (s : String) {p : List String} (hp : Bare (.obj [("project", .str s)]) p) :
      p.length = 2 := by
    rcases hp with _ | _ | hmem | ⟨hmem, hp⟩
    · cases mem_singleton.1 hmem
    · cases mem_singleton.1 hmem
      cases hp
      rfl
  have hcalls : ∀ d ∈ [Json.obj [("project", .str "account")], .obj [("project", .str "tasks")]],
      ∃ s, (s ≠ "" ∧ s ≠ "__proto__") ∧ d = .obj [("project", .str s)] := by
    intro d hd
    rcases (by simpa using hd : d = _ ∨ d = _) with rfl | rfl
    · exact ⟨_, by decide, rfl⟩
    · exact ⟨_, by decide, rfl⟩
  have hnames : ∀ e ∈ [Json.str "account", .str "tasks"],
      ∃ s, (s ≠ "" ∧ s ≠ "__proto__") ∧ e = .str s := by
    intro e he
    rcases (by simpa using he : e = _ ∨ e = _) with rfl | rfl
    · exact ⟨_, by decide, rfl⟩
    · exact ⟨_, by decide, rfl⟩
  have hdescriptor : Descriptor (.obj [("project", .arr [.str "account", .str "tasks"])]) :=
    .object (by simp) fun _ _ hmem _ => by
      cases mem_singleton.1 hmem
      refine .array (fun e he => ?_) fun e he => ?_
      · obtain ⟨s, hs, rfl⟩ := hnames e he
        exact .name hs
      · obtain ⟨s, -, rfl⟩ := hnames e he
        rfl
  have hkeeps := descriptors_keep_paths mergesDeeply_mergeInto hdescriptor fun d hd => by
    obtain ⟨s, hs, rfl⟩ := hcalls d hd
    exact hname s hs
  refine ⟨hkeeps.1.2 (.object fun _ _ hmem _ => ?_), hkeeps.2.2 fun q c hq hw => ?_⟩
  · cases mem_singleton.1 hmem
    refine .array (fun e he => ?_) fun e _ e' he' s c hc => ?_
    · obtain ⟨s, -, rfl⟩ := hnames e he
      exact .name
    · obtain ⟨s', -, rfl⟩ := hnames e' he'
      cases hc
  · obtain ⟨d, hd, hq⟩ := bare_arr.1 hq
    obtain ⟨d', hd', hw⟩ := writes_arr.1 hw
    obtain ⟨s, -, rfl⟩ := hcalls d hd
    obtain ⟨s', -, rfl⟩ := hcalls d' hd'
    have := hpath s' hw
    rw [length_append, hbare s hq] at this
    simp at this

/-- `Task.joins(["project", {project: "account"}])` joins no account. -/
theorem joins_lose_account :
    ¬ KeepsPaths (.arr [.str "project", .obj [("project", .str "account")]]) := by
  intro h
  obtain ⟨t, ht, hw, -⟩ := h _ .refl
  have htree : normalizeJoinObject (.arr [.str "project", .obj [("project", .str "account")]]) =
      .ok [("project", .bool true)] := by rfl
  cases htree.symm.trans ht
  have hp := (hw ["project", "account"]).2
    (.entry (mem_cons_of_mem _ mem_cons_self) (.nested mem_cons_self .name))
  rcases hp with _ | _ | _ | ⟨hmem, hp⟩
  cases mem_singleton.1 hmem
  cases hp

end Velocious.RelationshipTrees
