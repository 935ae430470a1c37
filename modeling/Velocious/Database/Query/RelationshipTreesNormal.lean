/-
  What a normalizer of descriptors makes of them.

  * `Normal`: a tree has flags and trees as its values.
  * `Lawful`: a way to merge, by the value that each relationship has afterwards.
  * `normalize_object` and `normalize_snoc`: the tree of an object, and of an array with one more
    entry; `normalize_normal`: a tree is its own tree.
-/
import Mathlib
import Velocious.Database.Query.RelationshipTrees

namespace Velocious.RelationshipTrees

open Foundation List

/-! ## Objects -/

/-- No name occurs twice. -/
abbrev Distinct (t : Fields) : Prop := (t.map Prod.fst).Nodup

section Objects

variable {t : Fields} {k s : String} {v : Json}

theorem lookup_cons : List.lookup s ((k, v) :: t) = if s = k then some v else t.lookup s := by
  by_cases h : s = k
  · simp [h]
  · have hne : (s == k) = false := by simpa using h
    simp [List.lookup, hne, h]

theorem lookup_setField : (setField k v t).lookup s = if s = k then some v else t.lookup s := by
  induction t with
  | nil => exact lookup_cons
  | cons field t ih =>
    simp only [setField]
    split
    · rename_i hname
      rw [lookup_cons, lookup_cons, hname]
      by_cases h : s = k <;> simp [h]
    · rename_i hname
      rw [lookup_cons, ih, lookup_cons]
      by_cases h : s = k
      · rw [h, if_neg (Ne.symm hname)]
        simp
      · simp [h]

theorem mem_keys_setField : s ∈ (setField k v t).map Prod.fst ↔ s = k ∨ s ∈ t.map Prod.fst := by
  induction t with
  | nil => simp [setField]
  | cons field t ih =>
    simp only [setField]
    split
    · rename_i h
      simp [← h]
    · rw [map_cons, mem_cons, map_cons, mem_cons]
      tauto

theorem distinct_setField (h : Distinct t) : Distinct (setField k v t) := by
  induction t with
  | nil => simp [setField, Distinct]
  | cons field t ih =>
    obtain ⟨hfield, ht⟩ := nodup_cons.1 h
    rw [setField]
    split
    · rename_i hk
      exact nodup_cons.2 ⟨hk ▸ hfield, ht⟩
    · rename_i hk
      refine nodup_cons.2 ⟨fun hmem => ?_, ih ht⟩
      rcases mem_keys_setField.1 hmem with h' | h'
      · exact hk h'
      · exact hfield h'

theorem mem_iff_lookup (h : Distinct t) : (k, v) ∈ t ↔ t.lookup k = some v := by
  induction t with
  | nil => simp
  | cons field t ih =>
    obtain ⟨name, value⟩ := field
    obtain ⟨hfield, ht⟩ := nodup_cons.1 h
    rw [mem_cons, ih ht, lookup_cons]
    by_cases hk : k = name
    · subst hk
      have hnone : t.lookup k ≠ some v := fun h' => hfield (mem_map.2 ⟨_, (ih ht).2 h', rfl⟩)
      simp [hnone, eq_comm]
    · simp [hk]

theorem lookup_eq_none (h : k ∉ t.map Prod.fst) : t.lookup k = none := by
  induction t with
  | nil => rfl
  | cons field t ih =>
    simp only [map_cons, mem_cons, not_or] at h
    rw [lookup_cons, if_neg h.1, ih h.2]

theorem setField_of_not_mem (h : k ∉ t.map Prod.fst) : setField k v t = t ++ [(k, v)] := by
  induction t with
  | nil => rfl
  | cons field t ih =>
    simp only [map_cons, mem_cons, not_or] at h
    rw [setField, if_neg (Ne.symm h.1), ih h.2, cons_append]

end Objects

/-! ## Paths of trees -/

section Paths

variable {t : Fields} {s : String} {p : List String} {d : Json}

theorem Writes.ne_nil (h : Writes d p) : p ≠ [] := by
  induction h with
  | name => simp
  | entry _ _ ih => exact ih
  | field => simp
  | nested => simp

theorem Bare.writes (h : Bare d p) : Writes d p := by
  induction h with
  | name => exact .name
  | entry he _ ih => exact .entry he ih
  | flag hmem => exact .field hmem
  | nested hmem _ ih => exact .nested hmem ih

theorem writes_arr {entries : List Json} : Writes (.arr entries) p ↔ ∃ e ∈ entries, Writes e p := by
  constructor
  · rintro (_ | ⟨he, h⟩)
    exact ⟨_, he, h⟩
  · rintro ⟨e, he, h⟩
    exact .entry he h

theorem bare_arr {entries : List Json} : Bare (.arr entries) p ↔ ∃ e ∈ entries, Bare e p := by
  constructor
  · rintro (_ | ⟨he, h⟩)
    exact ⟨_, he, h⟩
  · rintro ⟨e, he, h⟩
    exact .entry he h

theorem writes_obj {fields : Fields} :
    Writes (.obj fields) (s :: p) ↔ ∃ v, (s, v) ∈ fields ∧ (p = [] ∨ Writes v p) := by
  constructor
  · rintro (_ | _ | hmem | ⟨hmem, h⟩)
    · exact ⟨_, hmem, .inl rfl⟩
    · exact ⟨_, hmem, .inr h⟩
  · rintro ⟨v, hmem, rfl | h⟩
    · exact .field hmem
    · exact .nested hmem h

theorem bare_obj {fields : Fields} : Bare (.obj fields) (s :: p) ↔
    ∃ v, (s, v) ∈ fields ∧ (p = [] ∧ isFlag v = true ∨ Bare v p) := by
  constructor
  · rintro (_ | _ | hmem | ⟨hmem, h⟩)
    · exact ⟨_, hmem, .inl ⟨rfl, rfl⟩⟩
    · exact ⟨_, hmem, .inr h⟩
  · rintro ⟨v, hmem, ⟨rfl, h⟩ | h⟩
    · cases v with
      | bool b => exact .flag hmem
      | _ => cases h
    · exact .nested hmem h

theorem writes_tree (ht : Distinct t) :
    Writes (.obj t) (s :: p) ↔ ∃ v, t.lookup s = some v ∧ (p = [] ∨ Writes v p) := by
  simp only [writes_obj, mem_iff_lookup ht]

theorem bare_tree (ht : Distinct t) : Bare (.obj t) (s :: p) ↔
    ∃ v, t.lookup s = some v ∧ (p = [] ∧ isFlag v = true ∨ Bare v p) := by
  simp only [bare_obj, mem_iff_lookup ht]

theorem Writes.upTo {q : List String} (h : Writes d (p ++ q)) (hp : p ≠ []) : Writes d p := by
  generalize hpath : p ++ q = path at h
  induction h generalizing p with
  | @name s =>
    rcases p with - | ⟨s', p⟩
    · exact absurd rfl hp
    · simp only [cons_append, List.cons.injEq, append_eq_nil_iff] at hpath
      obtain ⟨rfl, rfl, -⟩ := hpath
      exact .name
  | entry he _ ih => exact .entry he (ih hp hpath)
  | field hmem =>
    rcases p with - | ⟨s', p⟩
    · exact absurd rfl hp
    · simp only [cons_append, List.cons.injEq, append_eq_nil_iff] at hpath
      obtain ⟨rfl, rfl, -⟩ := hpath
      exact .field hmem
  | nested hmem _ ih =>
    rcases p with - | ⟨s', p⟩
    · exact absurd rfl hp
    · obtain ⟨rfl, hrest⟩ := List.cons.inj hpath
      rcases p with - | ⟨c, p⟩
      · exact .field hmem
      · exact .nested hmem (ih (by simp) hrest)

theorem Writes.head {q : List String} (h : Writes d (s :: q)) : Writes d [s] :=
  Writes.upTo (p := [s]) h (by simp)

end Paths

/-! ## Trees -/

/-- A tree as normalizing leaves it. -/
inductive Normal : Json → Prop
  | flag {b} : Normal (.bool b)
  | tree {t} : Distinct t → (∀ s d, (s, d) ∈ t → Normal d) → Normal (.obj t)

theorem Normal.distinct {t : Fields} (h : Normal (.obj t)) : Distinct t := by
  cases h with
  | tree ht _ => exact ht

theorem Normal.value {t : Fields} (h : Normal (.obj t)) {s : String} {v : Json}
    (hv : t.lookup s = some v) : Normal v := by
  cases h with
  | tree ht hvalues => exact hvalues s v ((mem_iff_lookup ht).2 hv)

theorem normal_of_lookup {t : Fields} (ht : Distinct t)
    (h : ∀ s v, t.lookup s = some v → Normal v) : Normal (.obj t) :=
  .tree ht fun s v hmem => h s v ((mem_iff_lookup ht).1 hmem)

theorem not_writes_below_bare {d : Json} (hd : Normal d) {p : List String} (hp : Bare d p)
    (c : String) : ¬ Writes d (p ++ [c]) := by
  induction hp with
  | name => cases hd
  | entry => cases hd
  | flag hmem =>
    intro h
    obtain ⟨v, hv, hnil | hv'⟩ := (writes_tree hd.distinct).1 h
    · cases hnil
    · rw [(mem_iff_lookup hd.distinct).1 hmem] at hv
      cases hv
      cases hv'
  | nested hmem _ ih =>
    intro h
    have hlookup := (mem_iff_lookup hd.distinct).1 hmem
    obtain ⟨v, hv, hnil | hv'⟩ := (writes_tree hd.distinct).1 h
    · simp at hnil
    · cases hlookup.symm.trans hv
      exact ih (hd.value hlookup) hv'

/-- `t'` has for each relationship what `t` and `r` have for it, merged. -/
structure Merged (merge : Option Json → Option Json → Option Json) (t r t' : Fields) : Prop where
  distinct : Distinct t'
  lookup : ∀ s, t'.lookup s = merge (t.lookup s) (r.lookup s)

/-- What every merge of fields does. -/
structure Lawful (m : Merging) (merge : Option Json → Option Json → Option Json) : Prop where
  addField : ∀ t s v, s ∉ t.map Prod.fst → m.addField t s v = t ++ [(s, v)]
  addName : ∀ t s, Distinct t → Merged merge t [(s, .bool true)] (m.addName t s)
  addRecord : ∀ t r, Distinct t → Distinct r → Merged merge t r (m.addRecord t r)
  normal : ∀ a b v, (∀ u, a = some u → Normal u) → (∀ u, b = some u → Normal u) →
    merge a b = some v → Normal v

section Normalizing

variable {m : Merging} {merge : Option Json → Option Json → Option Json}

theorem Merged.normal (hm : Lawful m merge) {t r t' : Fields} (h : Merged merge t r t')
    (ht : Normal (.obj t)) (hr : Normal (.obj r)) : Normal (.obj t') :=
  normal_of_lookup h.distinct fun s _ hv => hm.normal _ _ _ (fun _ => ht.value) (fun _ => hr.value)
    ((h.lookup s).symm.trans hv)

/-! ## Objects -/

/-- The entry of a tree that an entry of an object becomes. -/
inductive FieldOf (m : Merging) : String × Json → String × Json → Prop
  | flag {s b} : FieldOf m (s, .bool b) (s, .bool b)
  | tree {s d t} : isFlag d = false → Descriptor d ∨ Normal d → normalize m d = .ok t →
      FieldOf m (s, d) (s, .obj t)

theorem FieldOf.name {f r : String × Json} (h : FieldOf m f r) : f.1 = r.1 := by
  cases h <;> rfl

variable {fields : Fields}

theorem map_fst_of_fieldOf {t : Fields} (h : List.Forall₂ (FieldOf m) fields t) :
    fields.map Prod.fst = t.map Prod.fst := by
  induction h with
  | nil => rfl
  | cons hf _ ih => rw [map_cons, map_cons, hf.name, ih]

theorem normalizeFields_eq (hm : Lawful m merge) {t : Fields} (result : Fields)
    (h : List.Forall₂ (FieldOf m) fields t) (hdistinct : Distinct (result ++ t)) :
    normalizeFields m result fields = .ok (result ++ t) := by
  induction h generalizing result with
  | nil => simp [normalizeFields]
  | @cons f r fields t hf _ ih =>
    obtain ⟨s, v⟩ := r
    have hs : s ∉ result.map Prod.fst := by
      intro hmem
      rw [Distinct, map_append, nodup_append] at hdistinct
      exact hdistinct.2.2 s hmem s (by simp) rfl
    have hrest : Distinct ((result ++ [(s, v)]) ++ t) := by simpa using hdistinct
    have hadd := hm.addField result s v hs
    cases hf with
    | flag => rw [normalizeFields, hadd, ih _ hrest, append_assoc, singleton_append]
    | @tree _ d tree hflag hd htree =>
      have hstep : normalizeFields m result ((s, d) :: fields) =
          normalizeFields m (m.addField result s (.obj tree)) fields := by
        rcases hd with hd | hd
        · cases hd <;> rw [normalizeFields, htree] <;> simp
        · cases hd with
          | flag => cases hflag
          | tree => rw [normalizeFields, htree] <;> simp
      rw [hstep, hadd, ih _ hrest, append_assoc, singleton_append]

theorem normalize_object (hm : Lawful m merge) {t : Fields}
    (h : List.Forall₂ (FieldOf m) fields t) (hdistinct : Distinct fields) :
    normalize m (.obj fields) = .ok t := by
  have ht : Distinct t := by rwa [Distinct, ← map_fst_of_fieldOf h]
  rw [normalize, normalizeFields_eq hm [] h ht, nil_append]

theorem exists_fields (h : ∀ s d, (s, d) ∈ fields → isFlag d = false →
    Descriptor d ∧ ∃ t, normalize m d = .ok t ∧ Normal (.obj t)) :
    ∃ t, List.Forall₂ (FieldOf m) fields t ∧ ∀ s d, (s, d) ∈ t → Normal d := by
  induction fields with
  | nil => exact ⟨[], .nil, fun _ _ hmem => (by cases hmem)⟩
  | cons field fields ih =>
    obtain ⟨s, d⟩ := field
    obtain ⟨t, ht, hnormal⟩ := ih fun s' d' hmem => h s' d' (mem_cons_of_mem _ hmem)
    have hcons {v : Json} (hf : FieldOf m (s, d) (s, v)) (hv : Normal v) :
        ∃ t, List.Forall₂ (FieldOf m) ((s, d) :: fields) t ∧ ∀ s d, (s, d) ∈ t → Normal d := by
      refine ⟨(s, v) :: t, .cons hf ht, fun s' d' hmem => ?_⟩
      rcases mem_cons.1 hmem with heq | hmem
      · cases heq
        exact hv
      · exact hnormal s' d' hmem
    cases hflag : isFlag d with
    | true =>
      cases d with
      | bool b => exact hcons .flag .flag
      | _ => cases hflag
    | false =>
      obtain ⟨hd, tree, htree, hv⟩ := h s d mem_cons_self hflag
      exact hcons (.tree hflag (.inl hd) htree) hv

theorem lookup_of_fieldOf {t : Fields} (h : List.Forall₂ (FieldOf m) fields t)
    (hdistinct : Distinct fields) {s : String} {d : Json} (hmem : (s, d) ∈ fields) :
    ∃ v, t.lookup s = some v ∧ FieldOf m (s, d) (s, v) := by
  have ht : Distinct t := by rwa [Distinct, ← map_fst_of_fieldOf h]
  have hfound : ∃ v, (s, v) ∈ t ∧ FieldOf m (s, d) (s, v) := by
    clear hdistinct ht
    induction h with
    | nil => cases hmem
    | @cons f r fields t hf _ ih =>
      obtain ⟨s', v⟩ := r
      rcases mem_cons.1 hmem with rfl | hmem
      · cases hf.name
        exact ⟨v, mem_cons_self, hf⟩
      · obtain ⟨v', hv', hfield⟩ := ih hmem
        exact ⟨v', mem_cons_of_mem _ hv', hfield⟩
  obtain ⟨v, hv, hfield⟩ := hfound
  exact ⟨v, (mem_iff_lookup ht).1 hv, hfield⟩

theorem normalizeEntries_append (result : Fields) (xs ys : List Json) :
    normalizeEntries m result (xs ++ ys) =
      (normalizeEntries m result xs).bind fun result => normalizeEntries m result ys := by
  induction xs generalizing result with
  | nil => rfl
  | cons x xs ih =>
    cases x with
    | str s => simp [normalizeEntries, ih]
    | obj fields =>
      simp only [cons_append, normalizeEntries]
      cases normalizeFields m [] fields with
      | ok normalized => exact ih _
      | error message => rfl
    | _ => rfl

section
variable (hm : Lawful m merge)
include hm

/-- **One more entry**: what an array has before it is merged with the tree of the entry. -/
theorem normalize_snoc {entries : List Json} {e : Json} {t r : Fields}
    (he : Descriptor e) (harray : isArray e = false) (ht : normalize m (.arr entries) = .ok t)
    (hr : normalize m e = .ok r) (htn : Distinct t) (hrn : Distinct r) :
    ∃ t', normalize m (.arr (entries ++ [e])) = .ok t' ∧ Merged merge t r t' := by
  rw [normalize] at ht
  rw [normalize, normalizeEntries_append, ht]
  cases he with
  | @name s hs =>
    rw [normalize, if_neg hs.1] at hr
    cases hr
    exact ⟨_, rfl, hm.addName t s htn⟩
  | array => cases harray
  | @object fields =>
    rw [normalize] at hr
    refine ⟨m.addRecord t r, ?_, hm.addRecord t r htn hrn⟩
    simp [Except.bind, normalizeEntries, hr]

theorem normalize_ok {d : Json} (h : Descriptor d) :
    ∃ t, normalize m d = .ok t ∧ Normal (.obj t) := by
  induction h with
  | @name s hs =>
    refine ⟨[(s, .bool true)], by rw [normalize, if_neg hs.1], .tree (by simp [Distinct]) ?_⟩
    intro s' d' hmem
    cases mem_singleton.1 hmem
    exact .flag
  | @array entries hentries harrays ih =>
    induction entries using List.reverseRecOn with
    | nil => exact ⟨[], rfl, .tree nodup_nil fun _ _ hmem => (by cases hmem)⟩
    | append_singleton entries e hind =>
      obtain ⟨t, ht, htn⟩ := hind (fun e' he' => hentries e' (by simp [he']))
        (fun e' he' => harrays e' (by simp [he'])) fun e' he' => ih e' (by simp [he'])
      obtain ⟨r, hr, hrn⟩ := ih e (by simp)
      obtain ⟨t', ht', hmerged⟩ := normalize_snoc hm (hentries e (by simp)) (harrays e (by simp))
        ht hr htn.distinct hrn.distinct
      exact ⟨t', ht', hmerged.normal hm htn hrn⟩
  | @object fields hdistinct hfields ih =>
    obtain ⟨t, ht, hvalues⟩ := exists_fields (m := m) fun s d hmem hflag =>
      ⟨hfields s d hmem hflag, ih s d hmem hflag⟩
    refine ⟨t, normalize_object hm ht hdistinct.1, .tree ?_ hvalues⟩
    rw [Distinct, ← map_fst_of_fieldOf ht]
    exact hdistinct.1

theorem normalize_object_ok (h : Descriptor (.obj fields)) :
    ∃ t, normalize m (.obj fields) = .ok t ∧ Normal (.obj t) ∧
      List.Forall₂ (FieldOf m) fields t := by
  cases h with
  | object hdistinct hfields =>
    obtain ⟨t, ht, hvalues⟩ := exists_fields (m := m) fun s d hmem hflag =>
      ⟨hfields s d hmem hflag, normalize_ok hm (hfields s d hmem hflag)⟩
    refine ⟨t, normalize_object hm ht hdistinct.1, .tree ?_ hvalues, ht⟩
    rw [Distinct, ← map_fst_of_fieldOf ht]
    exact hdistinct.1

theorem normalize_normal {t : Fields} (h : Normal (.obj t)) :
    normalize m (.obj t) = .ok t := by
  generalize hd : Json.obj t = d at h
  induction h generalizing t with
  | flag => cases hd
  | @tree t' hdistinct hvalues ih =>
    cases hd
    refine normalize_object hm (forall₂_same.2 fun field hmem => ?_) hdistinct
    obtain ⟨s, d⟩ := field
    cases hvalues s d hmem with
    | flag => exact .flag
    | tree => exact .tree rfl (.inr (hvalues s _ hmem)) (ih s _ hmem rfl)

end

end Normalizing

theorem normalizeNestedFields_normal {t : Fields} (result : Fields)
    (h : ∀ s tree, (s, Json.obj tree) ∈ t → normalizeNestedPreload (.obj tree) = .ok (some tree))
    (hnormal : ∀ s d, (s, d) ∈ t → Normal d) (hdistinct : Distinct (result ++ t)) :
    normalizeNestedFields result t = .ok (result ++ t) := by
  induction t generalizing result with
  | nil => simp [normalizeNestedFields]
  | cons field t ih =>
    obtain ⟨s, d⟩ := field
    have hs : s ∉ result.map Prod.fst := by
      intro hmem
      rw [Distinct, map_append, nodup_append] at hdistinct
      exact hdistinct.2.2 s hmem s (by simp) rfl
    have hrest := ih (result ++ [(s, d)])
      (fun s' tree hmem => h s' tree (mem_cons_of_mem _ hmem))
      (fun s' d' hmem => hnormal s' d' (mem_cons_of_mem _ hmem)) (by simpa using hdistinct)
    cases hnormal s d mem_cons_self with
    | flag =>
      rw [normalizeNestedFields, setField_of_not_mem hs, hrest, append_assoc,
        singleton_append]
    | @tree tree _ _ =>
      rw [normalizeNestedFields, h s tree mem_cons_self]
      simp only [setField_of_not_mem hs, hrest, append_assoc, singleton_append]
      · simp

theorem normalizeNestedPreload_normal {t : Fields} (h : Normal (.obj t)) :
    normalizeNestedPreload (.obj t) = .ok (some t) := by
  generalize hd : Json.obj t = d at h
  induction h generalizing t with
  | flag => cases hd
  | @tree t' hdistinct hvalues ih =>
    cases hd
    rw [normalizeNestedPreload, normalizeNestedFields_normal []
      (fun s tree hmem => ih s _ hmem rfl) hvalues hdistinct]
    rfl

/-! ## Rearrangements -/

section
variable {d d' : Json} (h : Rearranged d d')
include h

theorem Rearranged.writes (p : List String) :
    Writes d' p ↔ Writes d p := by
  induction h generalizing p with
  | perm hperm => simp [writes_arr, hperm.mem_iff]
  | twice he => simp only [writes_arr]; grind
  | entry _ ih => simp only [writes_arr, mem_append]; grind
  | field _ ih =>
    cases p with
    | nil => exact ⟨fun h => absurd rfl h.ne_nil, fun h => absurd rfl h.ne_nil⟩
    | cons s p => simp only [writes_obj, mem_append]; grind

theorem Rearranged.bare (p : List String) :
    Bare d' p ↔ Bare d p := by
  induction h generalizing p with
  | perm hperm => simp [bare_arr, hperm.mem_iff]
  | twice he => simp only [bare_arr]; grind
  | entry _ ih => simp only [bare_arr, mem_append]; grind
  | @field _ _ _ d d' hd ih =>
    have hflag : isFlag d' = isFlag d := by cases hd <;> rfl
    cases p with
    | nil => exact ⟨fun h => absurd rfl h.writes.ne_nil, fun h => absurd rfl h.writes.ne_nil⟩
    | cons s p => simp only [bare_obj, mem_append]; grind

theorem Rearranged.descriptor (hd : Descriptor d) :
    Descriptor d' := by
  induction h with
  | perm hperm =>
    cases hd with
    | array hentries harrays =>
      exact .array (fun e he => hentries e (hperm.mem_iff.2 he))
        fun e he => harrays e (hperm.mem_iff.2 he)
  | twice he =>
    cases hd with
    | array hentries harrays =>
      refine .array (fun e' he' => ?_) fun e' he' => ?_
      · rcases mem_cons.1 he' with rfl | he'
        · exact hentries _ he
        · exact hentries _ he'
      · rcases mem_cons.1 he' with rfl | he'
        · exact harrays _ he
        · exact harrays _ he'
  | @entry before after e e' hstep ih =>
    have hsame : isArray e' = isArray e := by cases hstep <;> rfl
    cases hd with
    | array hentries harrays =>
      refine .array (fun x hx => ?_) fun x hx => ?_
      · rcases mem_append.1 hx with hx | hx
        · exact hentries x (mem_append_left _ hx)
        · rcases mem_cons.1 hx with rfl | hx
          · exact ih (hentries e (by simp))
          · exact hentries x (by simp [hx])
      · rcases mem_append.1 hx with hx | hx
        · exact harrays x (mem_append_left _ hx)
        · rcases mem_cons.1 hx with rfl | hx
          · exact hsame ▸ harrays e (by simp)
          · exact harrays x (by simp [hx])
  | @field before after s d d' hstep ih =>
    have hflag : isFlag d = false := by cases hstep <;> rfl
    cases hd with
    | object hdistinct hfields =>
      refine .object (by simpa using hdistinct) fun s' x hx hx' => ?_
      rcases mem_append.1 hx with hx | hx
      · exact hfields s' x (mem_append_left _ hx) hx'
      · rcases mem_cons.1 hx with heq | hx
        · cases heq
          exact ih (hfields s d (by simp) hflag)
        · exact hfields s' x (by simp [hx]) hx'

end

section
variable {d d' : Json} (h : Rearrangement d d')
include h

theorem Rearrangement.writes (p : List String) :
    Writes d' p ↔ Writes d p := by
  induction h with
  | refl => rfl
  | tail _ hstep ih => rw [hstep.writes, ih]

theorem Rearrangement.descriptor (hd : Descriptor d) :
    Descriptor d' := by
  induction h with
  | refl => exact hd
  | tail _ hstep ih => exact hstep.descriptor ih

theorem Rearrangement.bare (p : List String) :
    Bare d' p ↔ Bare d p := by
  induction h with
  | refl => rfl
  | tail _ hstep ih => rw [hstep.bare, ih]

end

theorem Rearrangement.entries {entries : List Json} {d' : Json}
    (h : Rearrangement (.arr entries) d') (hd : ∀ e ∈ entries, Descriptor e) :
    ∃ entries', d' = .arr entries' ∧ ∀ e ∈ entries', Descriptor e := by
  induction h with
  | refl => exact ⟨entries, rfl, hd⟩
  | tail _ hstep ih =>
    obtain ⟨entries', rfl, hentries⟩ := ih
    cases hstep with
    | perm hperm => exact ⟨_, rfl, fun e he => hentries e (hperm.mem_iff.2 he)⟩
    | twice he =>
      refine ⟨_, rfl, fun e he' => ?_⟩
      rcases mem_cons.1 he' with rfl | he'
      · exact hentries _ he
      · exact hentries _ he'
    | @entry before after e e' hstep =>
      refine ⟨_, rfl, fun x hx => ?_⟩
      rcases mem_append.1 hx with hx | hx
      · exact hentries x (mem_append_left _ hx)
      · rcases mem_cons.1 hx with rfl | hx
        · exact hstep.descriptor (hentries e (by simp))
        · exact hentries x (by simp [hx])

theorem Rearrangement.last {entries : List Json} {e e' : Json} (he : e ∈ entries)
    (h : Rearrangement e e') : Rearrangement (.arr entries) (.arr (entries ++ [e'])) := by
  have hlast : Rearrangement (.arr entries) (.arr (entries ++ [e])) :=
    .tail (.single (.twice he)) (.perm (perm_append_singleton e entries).symm)
  refine hlast.trans ?_
  induction h with
  | refl => exact .refl
  | tail _ hstep ih => exact ih.tail (.entry hstep)

theorem Rearrangement.field {before after : Fields} {s : String} {d d' : Json}
    (h : Rearrangement d d') : Rearrangement (.obj (before ++ (s, d) :: after))
      (.obj (before ++ (s, d') :: after)) := by
  induction h with
  | refl => exact .refl
  | tail _ hstep ih => exact ih.tail (.field hstep)

theorem Rearrangement.isFlag {d d' : Json} (h : Rearrangement d d') : isFlag d' = isFlag d := by
  induction h with
  | refl => rfl
  | tail _ hstep ih => cases hstep <;> exact ih

theorem Rearrangement.isArray {d d' : Json} (h : Rearrangement d d') :
    isArray d' = isArray d := by
  induction h with
  | refl => rfl
  | tail _ hstep ih => cases hstep <;> exact ih

end Velocious.RelationshipTrees
