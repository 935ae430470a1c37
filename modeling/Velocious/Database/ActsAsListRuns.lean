/-
  The tables of gap-less lists represent lists of ids, and each save is an operation on them.

  * `Represents`: the row of the id at index `n` of a scope's list has position `n + 1`.
-/
import Velocious.Database.ActsAsList
import Mathlib.Data.List.Induction
import Mathlib.Tactic

namespace Velocious.ActsAsList

open Foundation List

set_option linter.unusedSectionVars false

variable {ι σ : Type} [DecidableEq ι] [DecidableEq σ]
variable {rows rows' : List (Row ι σ)} {lists : σ → List ι} {r row : Row ι σ} {s : σ} {id : ι}
variable {n : ℕ}

/-! ## Tables of lists -/

/-- The table of these lists. -/
structure Represents (rows : List (Row ι σ)) (lists : σ → List ι) : Prop where
  ids : (rows.map (·.id)).Nodup
  mem : ∀ r : Row ι σ, r ∈ rows ↔ ∃ n : ℕ, (lists r.scope)[n]? = some r.id ∧ r.position = n + 1

theorem eq_of_id (h : (rows.map (·.id)).Nodup) {t : Row ι σ} (hr : r ∈ rows) (ht : t ∈ rows)
    (hid : r.id = t.id) : r = t :=
  inj_on_of_nodup_map h hr ht hid

namespace Represents

section
variable (h : Represents rows lists)
include h

theorem row_of_index (hn : (lists s)[n]? = some id) :
    (⟨id, s, n + 1⟩ : Row ι σ) ∈ rows := (h.mem _).mpr ⟨n, hn, rfl⟩

theorem index_inj {t : σ} {m : ℕ} (hn : (lists s)[n]? = some id)
    (hm : (lists t)[m]? = some id) : s = t ∧ n = m := by
  have hsame := eq_of_id h.ids (h.row_of_index hn) (h.row_of_index hm) rfl
  refine ⟨congrArg Row.scope hsame, ?_⟩
  have hposition : (n : ℤ) + 1 = m + 1 := congrArg Row.position hsame
  omega

theorem positive (hr : r ∈ rows) : 0 < r.position := by
  obtain ⟨n, -, hposition⟩ := (h.mem r).mp hr
  omega

theorem eq_of_slot {t : Row ι σ} (hr : r ∈ rows) (ht : t ∈ rows)
    (hslot : r.slot = t.slot) : r = t := by
  obtain ⟨hscope, hposition⟩ := Prod.mk.inj hslot
  obtain ⟨n, hn, hrn⟩ := (h.mem r).mp hr
  obtain ⟨m, hm, htm⟩ := (h.mem t).mp ht
  obtain rfl : n = m := by omega
  rw [hscope] at hn
  exact eq_of_id h.ids hr ht (Option.some.inj (hn.symm.trans hm))

theorem indexed : Indexed rows :=
  ⟨h.ids, List.Nodup.map_on (fun _ hr _ ht => h.eq_of_slot hr ht) h.ids.of_map⟩

theorem of_mem (hids : (rows'.map (·.id)).Nodup)
    (hmem : ∀ r, r ∈ rows' ↔ r ∈ rows) : Represents rows' lists :=
  ⟨hids, fun r => (hmem r).trans (h.mem r)⟩

end

end Represents

/-! ## Reading a table -/

def rowsOf (s : σ) (ids : List ι) : List (Row ι σ) := ids.mapIdx fun n id => ⟨id, s, n + 1⟩

theorem mem_rowsOf {ids : List ι} :
    r ∈ rowsOf s ids ↔ r.scope = s ∧ ∃ n : ℕ, ids[n]? = some r.id ∧ r.position = n + 1 := by
  rw [rowsOf, mem_mapIdx]
  constructor
  · rintro ⟨n, hn, rfl⟩
    exact ⟨rfl, n, getElem?_eq_getElem hn, rfl⟩
  · rintro ⟨rfl, n, hn, hposition⟩
    obtain ⟨hlt, hget⟩ := List.getElem?_eq_some_iff.mp hn
    refine ⟨n, hlt, ?_⟩
    rw [hget, ← hposition]

theorem map_id_rowsOf (ids : List ι) : (rowsOf s ids).map (·.id) = ids := by
  induction ids using List.reverseRecOn with
  | nil => rfl
  | append_singleton ids id ih =>
    rw [rowsOf, mapIdx_concat, map_append]
    exact congrArg (· ++ [id]) ih

theorem map_position_rowsOf (ids : List ι) :
    (rowsOf s ids).map (·.position) = (List.range' 1 ids.length).map Nat.cast := by
  induction ids using List.reverseRecOn with
  | nil => rfl
  | append_singleton ids id ih =>
    rw [rowsOf, mapIdx_concat, map_append, length_append, length_singleton,
      range'_concat, ← rowsOf, ih]
    simp [add_comm]

theorem rowsOf_increasing (ids : List ι) :
    (rowsOf s ids).Pairwise fun r t => r.position < t.position := by
  have hrange : ((List.range' 1 ids.length).map (Nat.cast : ℕ → ℤ)).Pairwise (· < ·) :=
    pairwise_map.mpr ((pairwise_lt_range' 1).imp fun hlt => Int.ofNat_lt.mpr hlt)
  rw [← map_position_rowsOf (s := s)] at hrange
  exact pairwise_map.mp hrange

namespace Represents

theorem listOf_eq (h : Represents rows lists) (s : σ) : listOf rows s = rowsOf s (lists s) := by
  have hnodup : rows.Nodup := h.ids.of_map
  have hdistinct : (rows.filter (·.scope = s)).Pairwise fun r t => r.position ≠ t.position := by
    refine (hnodup.filter _).imp_of_mem fun hr ht hne hposition => hne ?_
    obtain ⟨hr, hrs⟩ := mem_filter.mp hr
    obtain ⟨ht, hts⟩ := mem_filter.mp ht
    refine h.eq_of_slot hr ht (Prod.ext ?_ hposition)
    exact (of_decide_eq_true hrs).trans (of_decide_eq_true hts).symm
  have hsorted := sortByKey_pairwise hdistinct
  have hperm : (listOf rows s).Perm (rowsOf s (lists s)) := by
    refine (perm_ext_iff_of_nodup (hsorted.imp fun hlt heq => ?_)
      ((rowsOf_increasing _).imp fun hlt heq => ?_)).mpr fun r => ?_
    · exact hlt.ne (congrArg Row.position heq)
    · exact hlt.ne (congrArg Row.position heq)
    · show r ∈ sortByKey Row.position _ ↔ _
      rw [mem_sortByKey, mem_filter, decide_eq_true_eq, h.mem, mem_rowsOf, and_comm]
      exact and_congr_right fun hscope => by rw [hscope]
  exact hperm.eq_of_pairwise (fun r t _ _ hrt htr => absurd hrt htr.not_gt) hsorted
    (rowsOf_increasing _)

theorem idsOf_eq (h : Represents rows lists) (s : σ) : idsOf rows s = lists s := by
  rw [idsOf, h.listOf_eq, map_id_rowsOf]

theorem compact (h : Represents rows lists) (s : σ) : (listOf rows s).map (·.position) =
    (List.range' 1 (idsOf rows s).length).map Nat.cast := by
  rw [h.idsOf_eq, h.listOf_eq, map_position_rowsOf]

end Represents

/-! ## Taking an id out and putting one in -/

def closeGap (s : σ) (p : ℤ) (r : Row ι σ) : Row ι σ :=
  if r.scope = s ∧ p < r.position then { r with position := r.position - 1 } else r

def openGap (s : σ) (p : ℤ) (r : Row ι σ) : Row ι σ :=
  if r.scope = s ∧ p ≤ r.position then { r with position := r.position + 1 } else r

@[simp]
theorem closeGap_id (p : ℤ) : (closeGap s p r).id = r.id := by
  unfold closeGap
  split
  · rfl
  · rfl

@[simp]
theorem closeGap_scope (p : ℤ) : (closeGap s p r).scope = r.scope := by
  unfold closeGap
  split
  · rfl
  · rfl

@[simp]
theorem openGap_id (p : ℤ) : (openGap s p r).id = r.id := by
  unfold openGap
  split
  · rfl
  · rfl

@[simp]
theorem openGap_scope (p : ℤ) : (openGap s p r).scope = r.scope := by
  unfold openGap
  split
  · rfl
  · rfl

theorem closeGap_of_scope (h : r.scope ≠ s) {p : ℤ} : closeGap s p r = r :=
  if_neg fun hand => h hand.1

theorem openGap_of_scope (h : r.scope ≠ s) {p : ℤ} : openGap s p r = r :=
  if_neg fun hand => h hand.1

theorem openGap_closeGap_below {p q : ℤ} (hlt : r.position < p) :
    openGap s q (closeGap s p r) = openGap s q r := by
  rw [closeGap, if_neg (by omega)]

theorem openGap_closeGap_above {p q : ℤ} (hscope : r.scope = s) (hgt : p < r.position) :
    openGap s q (closeGap s p r) =
      if q < r.position then r else { r with position := r.position - 1 } := by
  rw [closeGap, if_pos ⟨hscope, hgt⟩, openGap]
  by_cases hq : q < r.position
  · rw [if_pos hq, if_pos ⟨hscope, by show q ≤ r.position - 1; omega⟩]
    simp
  · rw [if_neg hq, if_neg]
    rintro ⟨-, hlow⟩
    have hlow' : q ≤ r.position - 1 := hlow
    omega

def takeOut (lists : σ → List ι) (s : σ) (n : ℕ) : σ → List ι :=
  Function.update lists s ((lists s).eraseIdx n)

def putIn (lists : σ → List ι) (s : σ) (n : ℕ) (id : ι) : σ → List ι :=
  Function.update lists s ((lists s).insertIdx n id)

namespace Represents

/-- **The table without a record's row** and the gap it leaves. -/
theorem erase (h : Represents rows lists)
    (hn : (lists row.scope)[n]? = some row.id) :
    Represents ((rows.filter (·.id ≠ row.id)).map (closeGap row.scope (n + 1)))
      (takeOut lists row.scope n) where
  ids := by
    rw [map_map, show Row.id ∘ closeGap row.scope (n + 1) = Row.id from
      funext fun r => closeGap_id (n + 1)]
    exact h.ids.sublist (filter_sublist.map _)
  mem := by
    intro x
    simp only [mem_map, mem_filter, decide_eq_true_eq]
    constructor
    · rintro ⟨r, ⟨hr, hne⟩, rfl⟩
      obtain ⟨k, hk, hposition⟩ := (h.mem r).mp hr
      rw [closeGap_id, closeGap_scope]
      by_cases hscope : r.scope = row.scope
      · rw [hscope] at hk
        have hkn : k ≠ n := by
          rintro rfl
          exact hne (Option.some.inj (hk.symm.trans hn))
        rw [takeOut, hscope, Function.update_self]
        by_cases hlt : k < n
        · refine ⟨k, ?_, ?_⟩
          · rw [getElem?_eraseIdx_of_lt hlt, hk]
          · rw [closeGap, if_neg (by omega), hposition]
        · refine ⟨k - 1, ?_, ?_⟩
          · rw [getElem?_eraseIdx_of_ge (by omega), show k - 1 + 1 = k by omega, hk]
          · rw [closeGap, if_pos ⟨hscope, by omega⟩]
            show r.position - 1 = _
            omega
      · refine ⟨k, ?_, ?_⟩
        · rw [takeOut, Function.update_of_ne hscope, hk]
        · rw [closeGap_of_scope hscope, hposition]
    · rintro ⟨m, hm, hposition⟩
      by_cases hscope : x.scope = row.scope
      · rw [takeOut, hscope, Function.update_self] at hm
        by_cases hlt : m < n
        · rw [getElem?_eraseIdx_of_lt hlt] at hm
          refine ⟨x, ⟨(h.mem x).mpr ⟨m, by rw [hscope, hm], hposition⟩, fun hid => ?_⟩, ?_⟩
          · rw [hid] at hm
            have hsame := (h.index_inj hm hn).2
            omega
          · rw [closeGap, if_neg (by omega)]
        · rw [getElem?_eraseIdx_of_ge (by omega)] at hm
          refine ⟨⟨x.id, x.scope, m + 2⟩, ⟨(h.mem _).mpr ⟨m + 1, by rw [hscope, hm], ?_⟩,
            fun hid => ?_⟩, ?_⟩
          · push_cast
            ring
          · have hid' : x.id = row.id := hid
            rw [hid'] at hm
            have hsame := (h.index_inj hm hn).2
            omega
          · rw [closeGap, if_pos ⟨hscope, by show (n : ℤ) + 1 < m + 2; omega⟩]
            show (⟨x.id, x.scope, (m : ℤ) + 2 - 1⟩ : Row ι σ) = x
            rw [show (m : ℤ) + 2 - 1 = x.position by omega]
      · rw [takeOut, Function.update_of_ne hscope] at hm
        refine ⟨x, ⟨(h.mem x).mpr ⟨m, hm, hposition⟩, fun hid => ?_⟩, ?_⟩
        · rw [hid] at hm
          exact hscope (h.index_inj hm hn).1
        · exact closeGap_of_scope hscope

/-- **The table with a new row** at a place that is opened for it. -/
theorem insert (h : Represents rows lists) (hnew : ∀ r ∈ rows, r.id ≠ id)
    (hn : n ≤ (lists s).length) :
    Represents (rows.map (openGap s (n + 1)) ++ [⟨id, s, n + 1⟩]) (putIn lists s n id) where
  ids := by
    rw [map_append, map_map, show Row.id ∘ openGap s (n + 1) = Row.id from
      funext fun r => openGap_id (n + 1)]
    refine nodup_append.mpr ⟨h.ids, nodup_singleton _, ?_⟩
    rintro x hx y hy rfl
    obtain ⟨r, hr, rfl⟩ := mem_map.mp hx
    exact hnew r hr (mem_singleton.mp hy)
  mem := by
    intro x
    rw [mem_append, mem_map, mem_singleton]
    constructor
    · rintro (⟨r, hr, rfl⟩ | rfl)
      · obtain ⟨k, hk, hposition⟩ := (h.mem r).mp hr
        rw [openGap_id, openGap_scope]
        by_cases hscope : r.scope = s
        · rw [hscope] at hk
          rw [putIn, hscope, Function.update_self]
          by_cases hlt : k < n
          · refine ⟨k, ?_, ?_⟩
            · rw [getElem?_insertIdx_of_lt hlt, hk]
            · rw [openGap, if_neg (by omega), hposition]
          · refine ⟨k + 1, ?_, ?_⟩
            · rw [getElem?_insertIdx_of_gt (by omega), Nat.add_sub_cancel, hk]
            · rw [openGap, if_pos ⟨hscope, by omega⟩]
              show r.position + 1 = _
              omega
        · refine ⟨k, ?_, ?_⟩
          · rw [putIn, Function.update_of_ne hscope, hk]
          · rw [openGap_of_scope hscope, hposition]
      · refine ⟨n, ?_, rfl⟩
        rw [putIn, Function.update_self, getElem?_insertIdx_self, if_pos hn]
    · rintro ⟨m, hm, hposition⟩
      by_cases hscope : x.scope = s
      · rw [putIn, hscope, Function.update_self] at hm
        rcases lt_trichotomy m n with hlt | rfl | hgt
        · rw [getElem?_insertIdx_of_lt hlt] at hm
          refine .inl ⟨x, (h.mem x).mpr ⟨m, by rw [hscope, hm], hposition⟩, ?_⟩
          rw [openGap, if_neg (by omega)]
        · rw [getElem?_insertIdx_self, if_pos hn] at hm
          refine .inr ?_
          rw [Option.some.inj hm, ← hscope, ← hposition]
        · rw [getElem?_insertIdx_of_gt hgt] at hm
          refine .inl ⟨⟨x.id, x.scope, m⟩, (h.mem _).mpr ⟨m - 1, by rw [hscope, hm], ?_⟩, ?_⟩
          · show (m : ℤ) = _
            omega
          · rw [openGap, if_pos ⟨hscope, by show (n : ℤ) + 1 ≤ m; omega⟩]
            show (⟨x.id, x.scope, (m : ℤ) + 1⟩ : Row ι σ) = x
            rw [← hposition]
      · rw [putIn, Function.update_of_ne hscope] at hm
        refine .inl ⟨x, (h.mem x).mpr ⟨m, hm, hposition⟩, ?_⟩
        exact openGap_of_scope hscope

/-- A row after the record's row is put at another place. -/
def moveRow (row : Row ι σ) (target : Row ι σ) (r : Row ι σ) : Row ι σ :=
  if r.id = row.id then target
  else openGap target.scope target.position (closeGap row.scope row.position r)

/-- **The table with the record's row at another place.** -/
theorem move (h : Represents rows lists) (hrow : row ∈ rows)
    (hn : (lists row.scope)[n]? = some row.id) {m : ℕ}
    (hm : m ≤ (takeOut lists row.scope n s).length) :
    Represents (rows.map (moveRow row ⟨row.id, s, m + 1⟩))
      (putIn (takeOut lists row.scope n) s m row.id) := by
  obtain ⟨k, hk, hposition⟩ := (h.mem row).mp hrow
  obtain rfl : n = k := (h.index_inj hn hk).2
  have hids : (rows.map (moveRow row ⟨row.id, s, m + 1⟩)).map Row.id = rows.map Row.id := by
    rw [map_map]
    refine map_congr_left fun r _ => ?_
    show (moveRow row ⟨row.id, s, m + 1⟩ r).id = r.id
    unfold moveRow
    split
    · rename_i hid
      exact hid.symm
    · rw [openGap_id, closeGap_id]
  have hclosed := h.erase hn
  have hinserted := hclosed.insert (fun r hr => by
    obtain ⟨t, ht, rfl⟩ := mem_map.mp hr
    rw [closeGap_id]
    exact of_decide_eq_true (mem_filter.mp ht).2) hm
  refine hinserted.of_mem (hids ▸ h.ids) fun x => ?_
  simp only [mem_append, mem_map, mem_singleton, mem_filter, decide_eq_true_eq]
  constructor
  · rintro ⟨r, hr, rfl⟩
    by_cases hid : r.id = row.id
    · refine .inr ?_
      rw [moveRow, if_pos hid]
    · refine .inl ⟨_, ⟨r, ⟨hr, hid⟩, rfl⟩, ?_⟩
      rw [moveRow, if_neg hid, hposition]
  · rintro (⟨_, ⟨r, ⟨hr, hid⟩, rfl⟩, rfl⟩ | rfl)
    · refine ⟨r, hr, ?_⟩
      rw [moveRow, if_neg hid, hposition]
    · refine ⟨row, hrow, ?_⟩
      rw [moveRow, if_pos rfl]

end Represents

/-! ## Statements -/

theorem accept_of_indexed (h : Indexed rows) : accept rows = .ok rows := if_pos h

theorem Indexed.map (h : Indexed rows) {g : Row ι σ → Row ι σ} (hid : ∀ r ∈ rows, (g r).id = r.id)
    (hslot : ∀ r ∈ rows, ∀ t ∈ rows, (g r).slot = (g t).slot → r = t) : Indexed (rows.map g) := by
  refine ⟨?_, ?_⟩
  · have hids : (rows.map g).map Row.id = rows.map Row.id := by
      rw [map_map]
      exact map_congr_left hid
    exact hids ▸ h.1
  · rw [map_map]
    exact List.Nodup.map_on hslot h.1.of_map

theorem Indexed.eq_of_slot (h : Indexed rows) {t : Row ι σ} (hr : r ∈ rows) (ht : t ∈ rows)
    (hslot : r.slot = t.slot) : r = t := inj_on_of_nodup_map h.2 hr ht hslot

def shifted (step : ℤ) (moved : Row ι σ → Prop) [DecidablePred moved] (r : Row ι σ) : Row ι σ :=
  if moved r then { r with position := r.position + step } else r

variable {scope : σ}

/-- **A shift in its order meets no row**, if what it moves onto is free or moved too. -/
theorem shiftRows_ok {step : ℤ} (hstep : step ≠ 0) {selected : List (Row ι σ)}
    (h : Indexed rows) (hsub : ∀ r ∈ selected, r ∈ rows ∧ r.scope = scope)
    (hordered : selected.Pairwise fun r t => step * t.position < step * r.position)
    (hfree : ∀ r ∈ selected, ∀ t ∈ rows, t.scope = scope → t.position = r.position + step →
      t ∈ selected) :
    shiftRows step scope selected rows = .ok (rows.map (shifted step (· ∈ selected))) := by
  induction selected generalizing rows with
  | nil =>
    have hmap : rows.map (shifted step (· ∈ ([] : List (Row ι σ)))) = rows.map id :=
      map_congr_left fun r _ => if_neg not_mem_nil
    rw [hmap, map_id]
    rfl
  | cons r selected ih =>
    obtain ⟨hfirst, hrest⟩ := pairwise_cons.mp hordered
    obtain ⟨hr, hscope⟩ := hsub r mem_cons_self
    have hsq : 0 < step * step := mul_self_pos.mpr hstep
    -- the place that the first row moves onto is free
    have hslot : ∀ t ∈ rows, ¬ (t.scope = scope ∧ t.position = r.position + step) := by
      rintro t ht ⟨hts, htp⟩
      rcases mem_cons.mp (hfree r mem_cons_self t ht hts htp) with rfl | hmem
      · omega
      · have hlt := hfirst t hmem
        rw [htp, mul_add] at hlt
        omega
    have hne : ∀ t ∈ selected, t ≠ r := by
      rintro t ht rfl
      exact lt_irrefl _ (hfirst t ht)
    have hother : ∀ t, t ≠ r → shifted step (· = r) t = t := fun t hne => if_neg hne
    have hself : shifted step (· = r) r = { r with position := r.position + step } := if_pos rfl
    have hone : ∀ t ∈ rows, (if t.id = r.id && t.scope = scope && t.position = r.position then
        { t with position := t.position + step } else t) = shifted step (· = r) t := by
      intro t ht
      by_cases heq : t = r
      · rw [heq, hself, if_pos (by simp [hscope])]
      · rw [hother t heq, if_neg]
        intro hand
        simp only [Bool.and_eq_true, decide_eq_true_eq] at hand
        exact heq (eq_of_id h.1 ht hr hand.1.1)
    have hindexed : Indexed (rows.map (shifted step (· = r))) := by
      refine h.map (fun t _ => ?_) fun t ht u hu hsame => ?_
      · unfold shifted
        split
        · rfl
        · rfl
      · by_cases htr : t = r
        · by_cases hur : u = r
          · rw [htr, hur]
          · rw [htr, hself, hother u hur] at hsame
            obtain ⟨hus, hup⟩ := Prod.mk.inj hsame
            exact absurd ⟨hus.symm.trans hscope, hup.symm⟩ (hslot u hu)
        · by_cases hur : u = r
          · rw [hur, hself, hother t htr] at hsame
            obtain ⟨hts, htp⟩ := Prod.mk.inj hsame
            exact absurd ⟨hts.trans hscope, htp⟩ (hslot t ht)
          · rw [hother t htr, hother u hur] at hsame
            exact h.eq_of_slot ht hu hsame
    have hupdate : updateRows rows (fun t => t.id = r.id && t.scope = scope && t.position = r.position)
        (fun t => { t with position := t.position + step }) =
        .ok (rows.map (shifted step (· = r))) := by
      rw [updateRows, map_congr_left hone]
      exact accept_of_indexed hindexed
    have hnext : shiftRows step scope (r :: selected) rows =
        shiftRows step scope selected (rows.map (shifted step (· = r))) := by
      rw [shiftRows, foldlM_cons, hupdate]
      rfl
    rw [hnext, ih hindexed ?_ hrest ?_, map_map]
    · refine congrArg Except.ok (map_congr_left fun t ht => ?_)
      show shifted step (· ∈ selected) (shifted step (· = r) t) = _
      by_cases htr : t = r
      · rw [htr, hself, shifted, if_neg, shifted, if_pos mem_cons_self]
        intro hmem
        have hback := eq_of_id h.1 (hsub _ (mem_cons_of_mem r hmem)).1 hr rfl
        have hposition : r.position + step = r.position := congrArg Row.position hback
        omega
      · have hiff : t ∈ r :: selected ↔ t ∈ selected := by simp [htr]
        rw [hother t htr]
        simp [shifted, hiff]
    · intro t ht
      obtain ⟨hmem, hts⟩ := hsub t (mem_cons_of_mem r ht)
      exact ⟨mem_map.mpr ⟨t, hmem, hother t (hne t ht)⟩, hts⟩
    · intro q hq t ht hts htp
      obtain ⟨u, hu, rfl⟩ := mem_map.mp ht
      by_cases hur : u = r
      · have hlt := hfirst q hq
        rw [hur, hself] at htp
        have hposition : r.position = q.position := by
          have hsum : r.position + step = q.position + step := htp
          omega
        rw [hposition] at hlt
        exact absurd hlt (lt_irrefl _)
      · rw [hother u hur] at hts htp ⊢
        rcases mem_cons.mp (hfree q (mem_cons_of_mem r hq) u hu hts htp) with hsame | hmem
        · exact absurd hsame hur
        · exact hmem

theorem indexed_of_accept (h : accept rows = .ok rows') : Indexed rows' := by
  unfold accept at h
  split at h
  · rename_i hindexed
    cases h
    exact hindexed
  · cases h

theorem indexed_of_shiftRows {step : ℤ} {selected : List (Row ι σ)} (h : Indexed rows)
    (hshift : shiftRows step scope selected rows = .ok rows') : Indexed rows' := by
  induction selected generalizing rows with
  | nil =>
    cases hshift
    exact h
  | cons r selected ih =>
    rw [shiftRows, foldlM_cons] at hshift
    cases hupdate : updateRows rows (fun t => t.id = r.id && t.scope = scope &&
        t.position = r.position) (fun t => { t with position := t.position + step }) with
    | error message =>
      rw [hupdate] at hshift
      cases hshift
    | ok next =>
      rw [hupdate] at hshift
      exact ih (indexed_of_accept hupdate) hshift

theorem sorted_range (h : Indexed rows) (key : Row ι σ → ℤ) (scope : σ) {keep : Row ι σ → Bool}
    (hkeep : ∀ r, keep r = true → r.scope = scope)
    (hkey : ∀ r t : Row ι σ, key r = key t → r.position = t.position) :
    (sortByKey key (rows.filter keep)).Pairwise fun r t => key r < key t := by
  refine sortByKey_pairwise ((h.1.of_map.filter _).imp_of_mem fun hr ht hne hsame => hne ?_)
  obtain ⟨hr, hrk⟩ := mem_filter.mp hr
  obtain ⟨ht, htk⟩ := mem_filter.mp ht
  exact h.eq_of_slot hr ht (Prod.ext ((hkeep _ hrk).trans (hkeep _ htk).symm) (hkey _ _ hsame))

variable {start : ℤ} {stop : Option ℤ}

theorem scope_of_inRange {exclude : Option ι}
    (h : inRange scope start stop exclude r = true) : r.scope = scope := by
  simp only [inRange, Bool.and_eq_true, decide_eq_true_eq] at h
  exact h.1.1.1.1

theorem map_shifted (selected : List (Row ι σ)) (step : ℤ) (keep : Row ι σ → Bool)
    (hselected : ∀ r, r ∈ selected ↔ r ∈ rows ∧ keep r = true) :
    rows.map (shifted step (· ∈ selected)) = rows.map (shifted step (keep · = true)) := by
  refine map_congr_left fun r hr => ?_
  have hiff : r ∈ selected ↔ keep r = true := (hselected r).trans (and_iff_right hr)
  simp only [shifted, hiff]

theorem shiftPositionsUp_ok (h : Indexed rows)
    {exclude : Option ι} (hfree : ∀ r ∈ rows, inRange scope start stop exclude r = true →
      ∀ t ∈ rows, t.scope = scope → t.position = r.position + 1 →
        inRange scope start stop exclude t = true) :
    shiftPositionsUp rows scope exclude start stop =
      .ok (rows.map (shifted 1 (inRange scope start stop exclude · = true))) := by
  have hselected : ∀ r, r ∈ sortByKey (fun r => -r.position)
      (rows.filter (inRange scope start stop exclude)) ↔
        r ∈ rows ∧ inRange scope start stop exclude r = true := fun r => by
    rw [mem_sortByKey, mem_filter]
  have hsorted := sorted_range h (fun r => -r.position) scope
    (fun r (hr : inRange scope start stop exclude r = true) => scope_of_inRange hr)
    (fun r t hsame => neg_injective hsame)
  rw [shiftPositionsUp, shiftRows_ok one_ne_zero h (fun r hr => ?_) (hsorted.imp fun hlt => ?_)
    fun r hr t ht hts htp => ?_, map_shifted _ _ _ hselected]
  · obtain ⟨hmem, hrange⟩ := (hselected r).mp hr
    exact ⟨hmem, scope_of_inRange hrange⟩
  · rw [one_mul, one_mul]
    exact neg_lt_neg_iff.mp hlt
  · obtain ⟨hmem, hrange⟩ := (hselected r).mp hr
    exact (hselected t).mpr ⟨ht, hfree r hmem hrange t ht hts htp⟩

theorem shiftPositionsDown_ok (h : Indexed rows)
    (hfree : ∀ r ∈ rows, inRange scope start stop (some id) r = true →
      ∀ t ∈ rows, t.scope = scope → t.position = r.position - 1 →
        inRange scope start stop (some id) t = true) :
    shiftPositionsDown rows scope id start stop =
      .ok (rows.map (shifted (-1) (inRange scope start stop (some id) · = true))) := by
  have hselected : ∀ r, r ∈ sortByKey (fun r => r.position)
      (rows.filter (inRange scope start stop (some id))) ↔
        r ∈ rows ∧ inRange scope start stop (some id) r = true := fun r => by
    rw [mem_sortByKey, mem_filter]
  have hsorted := sorted_range h (fun r => r.position) scope
    (fun r (hr : inRange scope start stop (some id) r = true) => scope_of_inRange hr)
    (fun r t hsame => hsame)
  rw [shiftPositionsDown, shiftRows_ok (by decide) h (fun r hr => ?_) (hsorted.imp fun hlt => ?_)
    fun r hr t ht hts htp => ?_, map_shifted _ _ _ hselected]
  · obtain ⟨hmem, hrange⟩ := (hselected r).mp hr
    exact ⟨hmem, scope_of_inRange hrange⟩
  · rw [neg_one_mul, neg_one_mul]
    exact neg_lt_neg_iff.mpr hlt
  · obtain ⟨hmem, hrange⟩ := (hselected r).mp hr
    exact (hselected t).mpr ⟨ht, hfree r hmem hrange t ht hts htp⟩

/-! ## The callbacks -/

def outOfWay (row r : Row ι σ) : Row ι σ :=
  if r.id = row.id then { r with position := -r.position } else r

@[simp]
theorem outOfWay_id : (outOfWay row r).id = r.id := by
  unfold outOfWay
  split
  · rfl
  · rfl

@[simp]
theorem outOfWay_scope : (outOfWay row r).scope = r.scope := by
  unfold outOfWay
  split
  · rfl
  · rfl

theorem outOfWay_of_ne (h : r.id ≠ row.id) : outOfWay row r = r := if_neg h

theorem outOfWay_row : outOfWay row row = { row with position := -row.position } := if_pos rfl

namespace Represents
variable {record : Row ι σ}

section
variable (h : Represents rows lists) (hrow : row ∈ rows)
include h hrow

theorem position_ne (hr : r ∈ rows)
    (hscope : r.scope = row.scope) (hid : r.id ≠ row.id) : r.position ≠ row.position :=
  fun hsame => hid (congrArg Row.id (h.eq_of_slot hr hrow (Prod.ext hscope hsame)))

theorem row_eq (hr : r ∈ rows)
    (hid : r.id = row.id) : r = row := eq_of_id h.ids hr hrow hid

theorem indexed_outOfWay :
    Indexed (rows.map (outOfWay row)) := by
  have hpos := h.positive hrow
  refine h.indexed.map (fun r _ => outOfWay_id) fun r hr t ht hsame => ?_
  by_cases hrid : r.id = row.id
  · by_cases htid : t.id = row.id
    · rw [h.row_eq hrow hr hrid, h.row_eq hrow ht htid]
    · rw [h.row_eq hrow hr hrid, outOfWay_row, outOfWay_of_ne htid] at hsame
      have hposition : -row.position = t.position := congrArg Prod.snd hsame
      have htpos := h.positive ht
      omega
  · by_cases htid : t.id = row.id
    · rw [h.row_eq hrow ht htid, outOfWay_row, outOfWay_of_ne hrid] at hsame
      have hposition : r.position = -row.position := congrArg Prod.snd hsame
      have hrpos := h.positive hr
      omega
    · rw [outOfWay_of_ne hrid, outOfWay_of_ne htid] at hsame
      exact h.eq_of_slot hr ht hsame

end

theorem moveOutOfWay_ok (h : Represents rows lists) (hc : Current rows record row) :
    moveOutOfWay rows record.scope record.id = .ok (rows.map (outOfWay row)) := by
  have hone : ∀ r ∈ rows, (if r.scope = record.scope && r.id = record.id then
      { r with position := -r.position } else r) = outOfWay row r := by
    intro r hr
    by_cases hid : r.id = row.id
    · rw [h.row_eq hc.mem hr hid, outOfWay_row]
      simp [hc.scope, hc.id]
    · rw [outOfWay_of_ne hid]
      simp [← hc.id, hid]
  rw [moveOutOfWay, updateRows, map_congr_left hone]
  exact accept_of_indexed (h.indexed_outOfWay hc.mem)

section
variable (h : Represents rows lists) (hc : Current rows record row) {start : ℤ} {stop : Option ℤ}
include hc

theorem not_inRange_self :
    inRange record.scope start stop (some record.id) (outOfWay row row) = false := by
  simp [inRange, hc.id]

include h

/-- A range that its shift leads on in, but for the row that is out of the way. -/
theorem inRange_next {d : ℤ} {Q : ℤ → Prop} (hd : -1 ≤ d)
    (hrange : ∀ r ∈ rows, r.id ≠ row.id →
      (inRange record.scope start stop (some record.id) r = true ↔
        r.scope = row.scope ∧ Q r.position))
    (hnext : ∀ k, Q k → k + d ≠ row.position → Q (k + d)) :
    ∀ r ∈ rows.map (outOfWay row), inRange record.scope start stop (some record.id) r = true →
      ∀ t ∈ rows.map (outOfWay row), t.scope = record.scope → t.position = r.position + d →
        inRange record.scope start stop (some record.id) t = true := by
  intro r₁ hr₁ hin t₁ ht₁ hscope htp
  obtain ⟨r, hr, rfl⟩ := mem_map.mp hr₁
  obtain ⟨t, ht, rfl⟩ := mem_map.mp ht₁
  have hrid : r.id ≠ row.id := by
    intro hid
    rw [h.row_eq hc.mem hr hid, not_inRange_self hc] at hin
    cases hin
  rw [outOfWay_of_ne hrid] at hin htp
  have hin' := ((hrange r hr hrid).mp hin).2
  have htid : t.id ≠ row.id := by
    intro hid
    have hpos := h.positive hc.mem
    have hrpos := h.positive hr
    rw [h.row_eq hc.mem ht hid, outOfWay_row] at htp
    have hnegative : -row.position = r.position + d := htp
    omega
  rw [outOfWay_of_ne htid] at htp hscope ⊢
  have hts : t.scope = row.scope := hscope.trans hc.scope.symm
  have hne := h.position_ne hc.mem ht hts htid
  rw [htp] at hne
  exact (hrange t ht htid).mpr ⟨hts, htp ▸ hnext r.position hin' hne⟩

/-- What a shift makes of the rows, by what it makes of those that are not the record's. -/
theorem map_shifted_outOfWay {d : ℤ} {g : Row ι σ → Row ι σ}
    (hother : ∀ r ∈ rows, r.id ≠ row.id →
      shifted d (inRange record.scope start stop (some record.id) · = true) r = g r) :
    (rows.map (outOfWay row)).map
        (shifted d (inRange record.scope start stop (some record.id) · = true)) =
      rows.map fun r => if r.id = row.id then { r with position := -r.position } else g r := by
  rw [map_map]
  refine map_congr_left fun r hr => ?_
  show shifted d _ (outOfWay row r) = _
  by_cases hid : r.id = row.id
  · rw [if_pos hid, h.row_eq hc.mem hr hid, shifted,
      if_neg (by rw [not_inRange_self hc]; decide), outOfWay_row]
  · rw [if_neg hid, outOfWay_of_ne hid]
    exact hother r hr hid

end

/-- A row when the gap of the record's row is closed, and that row is out of the way. -/
def closedRow (row r : Row ι σ) : Row ι σ :=
  if r.id = row.id then { r with position := -r.position }
  else closeGap row.scope row.position r

theorem closedRow_of_ne (h : r.id ≠ row.id) :
    closedRow row r = closeGap row.scope row.position r := if_neg h

section
variable (h : Represents rows lists) (hc : Current rows record row)
  (habove : AboveAlike rows record row)
include h hc habove

/-- **Closing the gap** that the record's row leaves. -/
theorem close_ok :
    shiftPositionsDown (rows.map (outOfWay row)) record.scope record.id (record.position + 1) none =
      .ok (rows.map (closedRow row)) := by
  have hrange : ∀ r ∈ rows, r.id ≠ row.id →
      (inRange record.scope (record.position + 1) none (some record.id) r = true ↔
        r.scope = row.scope ∧ row.position < r.position) := by
    intro r hr hid
    have hpos := h.positive hr
    simp only [inRange, Bool.and_eq_true, decide_eq_true_eq, Option.all_none, and_true,
      ← hc.scope, ← hc.id, Option.some.injEq, ne_eq]
    constructor
    · rintro ⟨⟨⟨hscope, hle⟩, -⟩, -⟩
      exact ⟨hscope, (habove r hr hscope hid).mp (by omega)⟩
    · rintro ⟨hscope, hlt⟩
      have hle := (habove r hr hscope hid).mpr hlt
      exact ⟨⟨⟨hscope, by omega⟩, hpos⟩, Ne.symm hid⟩
  rw [shiftPositionsDown_ok (h.indexed_outOfWay hc.mem) ?_,
    map_shifted_outOfWay h hc fun r hr hid => ?_]
  · rfl
  · rw [shifted, closeGap]
    simp only [hrange r hr hid]
    rfl
  · exact inRange_next h hc (d := -1) le_rfl hrange fun k hk hne => by omega

theorem indexed_closed : Indexed (rows.map (closedRow row)) :=
  indexed_of_shiftRows (h.indexed_outOfWay hc.mem) (h.close_ok hc habove)

end

variable {q : ℤ}

section
variable (h : Represents rows lists) (hc : Current rows record row)
include h hc

theorem open_ok (habove : AboveAlike rows record row) (hs : s ≠ row.scope) (hq : 1 ≤ q) :
    shiftPositionsUp (rows.map (closedRow row)) s (some record.id) q none =
      .ok (rows.map fun r => if r.id = row.id then { r with position := -r.position }
        else openGap s q (closeGap row.scope row.position r)) := by
  have hself : inRange s q none (some record.id) (closedRow row row) = false := by
    simp [inRange, closedRow, hs.symm]
  have hrange : ∀ r ∈ rows, r.id ≠ row.id →
      (inRange s q none (some record.id) (closeGap row.scope row.position r) = true ↔
        r.scope = s ∧ q ≤ (closeGap row.scope row.position r).position) := by
    intro r hr hid
    simp only [inRange, Bool.and_eq_true, decide_eq_true_eq, Option.all_none, and_true,
      ← hc.id, Option.some.injEq, ne_eq, closeGap_scope, closeGap_id]
    constructor
    · rintro ⟨⟨⟨hscope, hle⟩, -⟩, -⟩
      exact ⟨hscope, hle⟩
    · rintro ⟨hscope, hle⟩
      exact ⟨⟨⟨hscope, hle⟩, Int.one_pos.trans_le (hq.trans hle)⟩, Ne.symm hid⟩
  rw [shiftPositionsUp_ok (h.indexed_closed hc habove) ?_, map_map]
  · refine congrArg Except.ok (map_congr_left fun r hr => ?_)
    show shifted 1 _ (closedRow row r) = _
    by_cases hid : r.id = row.id
    · rw [if_pos hid, h.row_eq hc.mem hr hid, shifted, if_neg (by rw [hself]; decide), closedRow,
        if_pos rfl]
    · rw [if_neg hid, closedRow, if_neg hid, shifted, openGap]
      simp [hrange r hr hid]
  · intro r₁ hr₁ hin t₁ ht₁ hscope htp
    obtain ⟨r, hr, rfl⟩ := mem_map.mp hr₁
    obtain ⟨t, ht, rfl⟩ := mem_map.mp ht₁
    have hrid : r.id ≠ row.id := by
      intro hid
      rw [h.row_eq hc.mem hr hid, hself] at hin
      cases hin
    have htid : t.id ≠ row.id := by
      intro hid
      rw [h.row_eq hc.mem ht hid, closedRow, if_pos rfl] at hscope
      exact hs hscope.symm
    rw [closedRow_of_ne hrid] at hin htp
    rw [closedRow_of_ne htid] at hscope htp ⊢
    rw [closeGap_scope] at hscope
    have hle := ((hrange r hr hrid).mp hin).2
    exact (hrange t ht htid).mpr ⟨hscope, by omega⟩

theorem shiftUp_ok (hle : q ≤ row.position)
    (hbelow : ∀ r ∈ rows, r.scope = row.scope → r.id ≠ row.id → q ≤ r.position →
      (r.position < record.position ↔ r.position < row.position)) :
    shiftPositionsUp (rows.map (outOfWay row)) record.scope (some record.id) q
        (some record.position) =
      .ok (rows.map fun r => if r.id = row.id then { r with position := -r.position }
        else openGap row.scope q (closeGap row.scope row.position r)) := by
  have hrange : ∀ r ∈ rows, r.id ≠ row.id →
      (inRange record.scope q (some record.position) (some record.id) r = true ↔
        r.scope = row.scope ∧ q ≤ r.position ∧ r.position < row.position) := by
    intro r hr hid
    have hpos := h.positive hr
    simp only [inRange, Bool.and_eq_true, decide_eq_true_eq, Option.all_some,
      ← hc.scope, ← hc.id, Option.some.injEq, ne_eq]
    constructor
    · rintro ⟨⟨⟨⟨hscope, hlow⟩, -⟩, -⟩, hlt⟩
      exact ⟨hscope, hlow, (hbelow r hr hscope hid hlow).mp hlt⟩
    · rintro ⟨hscope, hlow, hlt⟩
      exact ⟨⟨⟨⟨hscope, hlow⟩, hpos⟩, Ne.symm hid⟩, (hbelow r hr hscope hid hlow).mpr hlt⟩
  rw [shiftPositionsUp_ok (h.indexed_outOfWay hc.mem) ?_,
    map_shifted_outOfWay h hc fun r hr hid => ?_]
  · rw [shifted]
    simp only [hrange r hr hid]
    by_cases hscope : r.scope = row.scope
    · rcases lt_or_gt_of_ne (h.position_ne hc.mem hr hscope hid) with hlt | hgt
      · rw [openGap_closeGap_below hlt, openGap]
        simp [hlt]
      · rw [openGap_closeGap_above hscope hgt, if_neg (by omega), if_pos (by omega)]
    · rw [closeGap_of_scope hscope, openGap_of_scope hscope, if_neg fun hand => hscope hand.1]
  · exact inRange_next h hc (d := 1) (Q := fun k => q ≤ k ∧ k < row.position) (by decide) hrange
      fun k hk hne => by omega

theorem shiftDown_ok (hle : row.position ≤ q)
    (habove : ∀ r ∈ rows, r.scope = row.scope → r.id ≠ row.id → r.position ≤ q →
      (record.position < r.position ↔ row.position < r.position)) :
    shiftPositionsDown (rows.map (outOfWay row)) record.scope record.id (record.position + 1)
        (some (q + 1)) =
      .ok (rows.map fun r => if r.id = row.id then { r with position := -r.position }
        else openGap row.scope q (closeGap row.scope row.position r)) := by
  have hrange : ∀ r ∈ rows, r.id ≠ row.id →
      (inRange record.scope (record.position + 1) (some (q + 1)) (some record.id) r = true ↔
        r.scope = row.scope ∧ row.position < r.position ∧ r.position ≤ q) := by
    intro r hr hid
    have hpos := h.positive hr
    simp only [inRange, Bool.and_eq_true, decide_eq_true_eq, Option.all_some,
      ← hc.scope, ← hc.id, Option.some.injEq, ne_eq]
    constructor
    · rintro ⟨⟨⟨⟨hscope, hlow⟩, -⟩, -⟩, hlt⟩
      exact ⟨hscope, (habove r hr hscope hid (by omega)).mp (by omega), by omega⟩
    · rintro ⟨hscope, hlow, hlt⟩
      have hlow' := (habove r hr hscope hid hlt).mpr hlow
      exact ⟨⟨⟨⟨hscope, by omega⟩, hpos⟩, Ne.symm hid⟩, by omega⟩
  rw [shiftPositionsDown_ok (h.indexed_outOfWay hc.mem) ?_,
    map_shifted_outOfWay h hc fun r hr hid => ?_]
  · rw [shifted]
    simp only [hrange r hr hid]
    by_cases hscope : r.scope = row.scope
    · rcases lt_or_gt_of_ne (h.position_ne hc.mem hr hscope hid) with hlt | hgt
      · rw [openGap_closeGap_below hlt, openGap, if_neg (by omega), if_neg (by omega)]
      · rw [openGap_closeGap_above hscope hgt]
        by_cases hup : q < r.position
        · rw [if_neg (by omega), if_pos hup]
        · rw [if_pos ⟨hscope, hgt, by omega⟩, if_neg hup]
          rfl
    · rw [closeGap_of_scope hscope, openGap_of_scope hscope, if_neg fun hand => hscope hand.1]
  · exact inRange_next h hc (d := -1) (Q := fun k => row.position < k ∧ k ≤ q) le_rfl hrange
      fun k hk hne => by omega

end

theorem highest_eq (h : Represents rows lists) (s : σ) :
    highestPositionInScope rows s = (lists s).length := by
  have hmem : ∀ r, r ∈ sortByKey (fun r => -r.position) (rows.filter (·.scope = s)) ↔
      r ∈ rows ∧ r.scope = s := fun r => by
    rw [mem_sortByKey, mem_filter, decide_eq_true_eq]
  have hsorted := sorted_range h.indexed (fun r => -r.position) s
    (fun r (hr : decide (r.scope = s) = true) => of_decide_eq_true hr)
    (fun r t hsame => neg_injective hsame)
  rw [highestPositionInScope]
  cases hlist : sortByKey (fun r => -r.position) (rows.filter (·.scope = s)) with
  | nil =>
    have hempty : (lists s) = [] := by
      refine eq_nil_iff_forall_not_mem.mpr fun id hid => ?_
      obtain ⟨n, hn⟩ := mem_iff_getElem?.mp hid
      have hrow := (hmem _).mpr ⟨h.row_of_index hn, rfl⟩
      rw [hlist] at hrow
      exact not_mem_nil hrow
    rw [hempty]
    rfl
  | cons first rest =>
    rw [hlist] at hsorted hmem
    obtain ⟨hfirst, hscope⟩ := (hmem first).mp mem_cons_self
    obtain ⟨k, hk, hposition⟩ := (h.mem first).mp hfirst
    rw [hscope] at hk
    obtain ⟨hlt, -⟩ := List.getElem?_eq_some_iff.mp hk
    have hlast : (lists s)[(lists s).length - 1]? = some (lists s)[(lists s).length - 1] :=
      getElem?_eq_getElem (by omega)
    have hrow := (hmem _).mpr ⟨h.row_of_index hlast, rfl⟩
    have hle : ((lists s).length : ℤ) ≤ first.position := by
      rcases mem_cons.mp hrow with hsame | hin
      · have hp : (((lists s).length - 1 : ℕ) : ℤ) + 1 = first.position :=
          congrArg Row.position hsame
        omega
      · have hneg : -first.position < -((((lists s).length - 1 : ℕ) : ℤ) + 1) :=
          (pairwise_cons.mp hsorted).1 _ hin
        omega
    show first.position = _
    omega

theorem highest_outOfWay (hs : s ≠ row.scope) (h : Represents rows lists) (hrow : row ∈ rows) :
    highestPositionInScope (rows.map (outOfWay row)) s = highestPositionInScope rows s := by
  have hkeep : (fun r : Row ι σ => decide (r.scope = s)) ∘ outOfWay row =
      fun r => decide (r.scope = s) := funext fun r => by
    show decide ((outOfWay row r).scope = s) = _
    rw [outOfWay_scope]
  have hfilter : (rows.map (outOfWay row)).filter (·.scope = s) = rows.filter (·.scope = s) := by
    rw [filter_map, hkeep]
    refine (map_congr_left (g := fun r => r) fun r hr => ?_).trans (map_id' _)
    obtain ⟨hmem, hscope⟩ := mem_filter.mp hr
    refine outOfWay_of_ne fun hid => hs ?_
    rw [← of_decide_eq_true hscope, h.row_eq hrow hmem hid]
  rw [highestPositionInScope, hfilter]
  rfl

theorem openGap_end (h : Represents rows lists) (hr : r ∈ rows) :
    openGap s ((lists s).length + 1) r = r := by
  refine if_neg fun hand => ?_
  obtain ⟨k, hk, hposition⟩ := (h.mem r).mp hr
  rw [hand.1] at hk
  obtain ⟨hlt, -⟩ := List.getElem?_eq_some_iff.mp hk
  omega

/-- **Creating a record** puts it into its list. -/
theorem create_ok (h : Represents rows lists) (hnew : ∀ r ∈ rows, r.id ≠ id)
    {position : Option ℤ} {n : ℕ} (hn : n ≤ (lists s).length)
    (hposition : position.getD ((lists s).length + 1) = n + 1) :
    ∃ rows', create rows id s position = .ok rows' ∧ Represents rows' (putIn lists s n id) := by
  have hinserted := h.insert hnew hn
  refine ⟨_, ?_, hinserted⟩
  cases position with
  | none =>
    have hend : ((lists s).length : ℤ) + 1 = n + 1 := hposition
    have hsame : rows.map (openGap s (n + 1)) = rows := by
      rw [← hend]
      exact (map_congr_left (g := fun r => r) fun r hr => h.openGap_end hr).trans (map_id' _)
    show accept (rows ++ [⟨id, s, highestPositionInScope rows s + 1⟩]) = _
    rw [h.highest_eq, hend, hsame]
    rw [hsame] at hinserted
    exact accept_of_indexed hinserted.indexed
  | some q =>
    obtain rfl : q = n + 1 := hposition
    have hshift : shiftPositionsUp rows s none ((n : ℤ) + 1) none =
        .ok (rows.map (openGap s (n + 1))) := by
      have hrange : ∀ r ∈ rows, (inRange s ((n : ℤ) + 1) none none r = true ↔
          r.scope = s ∧ (n : ℤ) + 1 ≤ r.position) := by
        intro r hr
        have hpos := h.positive hr
        simp [inRange, hpos]
      rw [shiftPositionsUp_ok h.indexed ?_]
      · refine congrArg Except.ok (map_congr_left fun r hr => ?_)
        rw [shifted, openGap]
        simp [hrange r hr]
      · intro r hr hin t ht hscope htp
        have hle := ((hrange r hr).mp hin).2
        exact (hrange t ht).mpr ⟨hscope, by omega⟩
    have hassert : assertPositivePosition (some ((n : ℤ) + 1)) false = .ok ((n : ℤ) + 1) :=
      if_pos (by omega)
    have hbefore : beforeCreate rows s (some ((n : ℤ) + 1)) =
        .ok (rows.map (openGap s (n + 1)), (n : ℤ) + 1) := by
      simp only [beforeCreate, hassert, bind, Except.bind, hshift]
      rfl
    simp only [create, hbefore]
    exact accept_of_indexed hinserted.indexed

/-- **Destroying a record** takes it out of its list. -/
theorem destroy_ok (h : Represents rows lists) {record : Row ι σ} (hc : Current rows record row)
    (habove : AboveAlike rows record row) (hn : (lists row.scope)[n]? = some row.id) :
    ∃ rows', destroy rows record = .ok rows' ∧ Represents rows' (takeOut lists row.scope n) := by
  obtain ⟨k, hk, hposition⟩ := (h.mem row).mp hc.mem
  obtain rfl : n = k := (h.index_inj hn hk).2
  have hassert : assertPositivePosition (some record.position) true = .ok record.position :=
    if_pos hc.positive
  have hbefore : beforeDestroy rows record = .ok (rows.map (closedRow row)) := by
    simp only [beforeDestroy, hassert, h.moveOutOfWay_ok hc]
    exact h.close_ok hc habove
  refine ⟨_, ?_, h.erase hn⟩
  simp only [destroy, hbefore]
  refine congrArg Except.ok ?_
  have hkeep : (fun r : Row ι σ => decide (r.id ≠ record.id)) ∘ closedRow row =
      fun r => decide (r.id ≠ row.id) := funext fun r => by
    show decide ((closedRow row r).id ≠ record.id) = _
    rw [← hc.id]
    unfold closedRow
    split
    · rfl
    · rw [closeGap_id]
  rw [filter_map, hkeep]
  refine map_congr_left fun r hr => ?_
  rw [closedRow_of_ne (of_decide_eq_true (mem_filter.mp hr).2), hposition]

variable {m : ℕ}

theorem place_ok (h : Represents rows lists) (hrow : row ∈ rows)
    (hn : (lists row.scope)[n]? = some row.id) (hm : m ≤ (takeOut lists row.scope n s).length)
    (f set : Row ι σ → Row ι σ) (hself : (f row).id = row.id)
    (hother : ∀ r ∈ rows, r.id ≠ row.id →
      f r = openGap s (m + 1) (closeGap row.scope row.position r))
    (hset : set (f row) = ⟨row.id, s, m + 1⟩) {record : Row ι σ} (hid : row.id = record.id) :
    updateRows (rows.map f) (fun r => r.id = record.id) set =
      .ok (rows.map (moveRow row ⟨row.id, s, m + 1⟩)) := by
  rw [← hid]
  have hmap : (rows.map f).map (fun r => if decide (r.id = row.id) = true then set r else r) =
      rows.map (moveRow row ⟨row.id, s, m + 1⟩) := by
    rw [map_map]
    refine map_congr_left fun r hr => ?_
    show (if decide ((f r).id = row.id) = true then set (f r) else f r) = _
    by_cases hid : r.id = row.id
    · rw [h.row_eq hrow hr hid, if_pos (decide_eq_true hself), hset, moveRow, if_pos rfl]
    · rw [hother r hr hid, if_neg, moveRow, if_neg hid]
      rw [openGap_id, closeGap_id, decide_eq_true_eq]
      exact hid
  rw [updateRows, hmap]
  exact accept_of_indexed (h.move hrow hn hm).indexed

theorem length_takeOut_self (hn : (lists row.scope)[n]? = some row.id) :
    (takeOut lists row.scope n row.scope).length = (lists row.scope).length - 1 := by
  obtain ⟨hlt, -⟩ := List.getElem?_eq_some_iff.mp hn
  rw [takeOut, Function.update_self, length_eraseIdx_of_lt hlt]

theorem takeOut_of_ne (hs : s ≠ row.scope) : takeOut lists row.scope n s = lists s :=
  Function.update_of_ne hs _ _

theorem any_moved (hrow : row ∈ rows) {record : Row ι σ} (hid : row.id = record.id) (s : σ)
    (q : ℤ) : (rows.map (moveRow row ⟨row.id, s, q⟩)).any (fun r => r.id = record.id) = true :=
  any_eq_true.mpr
    ⟨⟨row.id, s, q⟩, mem_map.mpr ⟨row, hrow, if_pos rfl⟩, decide_eq_true hid⟩

variable {request : UpdateRequest σ}

section
variable (h : Represents rows lists) {record : Row ι σ} (hc : Current rows record row)
include h hc

/-- **A new position** in the record's own list. -/
theorem update_within (hn : (lists row.scope)[n]? = some row.id)
    (hchanges : changesOf record request = ⟨some (some (m + 1)), none⟩)
    (hne : (m : ℤ) + 1 ≠ record.position) (hm : m < (lists row.scope).length)
    (hbelow : (m : ℤ) + 1 < record.position → ∀ r ∈ rows, r.scope = row.scope → r.id ≠ row.id →
      (m : ℤ) + 1 ≤ r.position → (r.position < record.position ↔ r.position < row.position))
    (habove : record.position < (m : ℤ) + 1 → ∀ r ∈ rows, r.scope = row.scope → r.id ≠ row.id →
      r.position ≤ (m : ℤ) + 1 → (record.position < r.position ↔ row.position < r.position)) :
    ∃ rows', update rows record request = .ok rows' ∧
      Represents rows' (putIn (takeOut lists row.scope n) row.scope m row.id) := by
  have hlength := length_takeOut_self hn
  have hmoved := h.move hc.mem hn (s := row.scope) (m := m) (by omega)
  refine ⟨_, ?_, hmoved⟩
  have hpersisted : assertPositivePosition (some record.position) true = .ok record.position :=
    if_pos hc.positive
  have hrequested : assertPositivePosition (some ((m : ℤ) + 1)) false = .ok ((m : ℤ) + 1) :=
    if_pos (by omega)
  -- the row that is at the requested position, if the record's is not
  obtain ⟨at_, hat⟩ : ∃ id, (lists row.scope)[m]? = some id :=
    ⟨_, getElem?_eq_getElem hm⟩
  have hatrow := h.row_of_index hat
  have hother : (m : ℤ) + 1 ≠ row.position → at_ ≠ row.id := by
    rintro hposition rfl
    obtain ⟨k, hk, hrowk⟩ := (h.mem row).mp hc.mem
    have hsame := (h.index_inj hat hk).2
    omega
  have hshift : beforeUpdate rows record request = .ok (rows.map (fun r =>
      if r.id = row.id then { r with position := -r.position }
      else openGap row.scope ((m : ℤ) + 1) (closeGap row.scope row.position r)),
        ⟨some (some ((m : ℤ) + 1)), none⟩) := by
    rcases lt_or_gt_of_ne hne with hlt | hgt
    · have hle : (m : ℤ) + 1 ≤ row.position := by
        by_contra hgt
        have hiff := hbelow hlt _ hatrow rfl (hother (by omega)) le_rfl
        exact absurd (hiff.mp hlt) (by show ¬ (m : ℤ) + 1 < row.position; omega)
      simp only [beforeUpdate, hchanges, Option.getD_some, hpersisted, hrequested, bind, Except.bind,
        h.moveOutOfWay_ok hc, hlt, h.shiftUp_ok hc hle (hbelow hlt)]
      rfl
    · have hle : row.position ≤ (m : ℤ) + 1 := by
        by_contra hlt
        have hiff := habove hgt _ hatrow rfl (hother (by omega)) le_rfl
        exact absurd (hiff.mp hgt) (by show ¬ row.position < (m : ℤ) + 1; omega)
      have hnot : ¬ (m : ℤ) + 1 < record.position := by omega
      simp only [beforeUpdate, hchanges, Option.getD_some, hpersisted, hrequested, bind, Except.bind,
        h.moveOutOfWay_ok hc, hnot, show record.position < (m : ℤ) + 1 from hgt, h.shiftDown_ok hc hle (habove hgt)]
      rfl
  have hplace := h.place_ok hc.mem hn (s := row.scope) (m := m) (by omega)
    (fun r => if r.id = row.id then { r with position := -r.position }
      else openGap row.scope ((m : ℤ) + 1) (closeGap row.scope row.position r))
    (fun r => { r with position := (m : ℤ) + 1 }) (by rw [if_pos rfl])
    (fun r _ hid => if_neg hid) (by rw [if_pos rfl]) hc.id
  simp only [update, hshift, bind, Except.bind, Option.getD_none, Option.getD_some, hplace]
  exact if_pos (any_moved hc.mem hc.id _ _)

section
variable (habove : AboveAlike rows record row) (hn : (lists row.scope)[n]? = some row.id)
include habove hn

/-- **A new scope** and a position in its list. -/
theorem update_across (hassigned : request.posAssigned = true) {position : Option (Option ℤ)}
    (hchanges : changesOf record request = ⟨position, some s⟩)
    (hposition : position.getD (some record.position) = some ((m : ℤ) + 1)) (hs : s ≠ row.scope)
    (hm : m ≤ (lists s).length) :
    ∃ rows', update rows record request = .ok rows' ∧
      Represents rows' (putIn (takeOut lists row.scope n) s m row.id) := by
  have hlength : m ≤ (takeOut lists row.scope n s).length := by
    rw [takeOut_of_ne hs]
    exact hm
  have hmoved := h.move hc.mem hn hlength
  refine ⟨_, ?_, hmoved⟩
  have hpersisted : assertPositivePosition (some record.position) true = .ok record.position :=
    if_pos hc.positive
  have hrequested : assertPositivePosition (position.getD (some record.position)) false =
      .ok ((m : ℤ) + 1) := by
    rw [hposition]
    exact if_pos (by omega)
  have hplace := h.place_ok hc.mem hn hlength
    (fun r => if r.id = row.id then { r with position := -r.position }
      else openGap s ((m : ℤ) + 1) (closeGap row.scope row.position r))
    (fun r => { r with scope := s, position := (m : ℤ) + 1 }) (by rw [if_pos rfl])
    (fun r _ hid => if_neg hid) (by rw [if_pos rfl]) hc.id
  have hopen := h.open_ok hc habove hs (q := (m : ℤ) + 1) (by omega)
  have hbefore : beforeUpdate rows record request =
      .ok (rows.map (moveRow row ⟨row.id, s, (m : ℤ) + 1⟩), ⟨none, none⟩) := by
    simp only [beforeUpdate, hchanges, Option.isNone_some, Bool.and_false, hpersisted, hrequested,
      bind, Except.bind, h.moveOutOfWay_ok hc, hassigned, h.close_ok hc habove, hopen,
      placeMovedRecord, hplace]
    rfl
  simp only [update, hbefore]
  rfl

/-- **A new scope** without a position: the record goes to the end of its list, unless its own
    position is the one after the end. -/
theorem update_append (hassigned : request.posAssigned = false)
    {position : Option (Option ℤ)} (hchanges : changesOf record request = ⟨position, some s⟩)
    (hposition : position.getD (some record.position) = some q) (hq : 0 < q)
    (hs : s ≠ row.scope) (hend : record.position ≠ (lists s).length + 1) :
    ∃ rows', update rows record request = .ok rows' ∧
      Represents rows' (putIn (takeOut lists row.scope n) s (lists s).length row.id) := by
  have hlength : (lists s).length ≤ (takeOut lists row.scope n s).length := by
    rw [takeOut_of_ne hs]
  have hmoved := h.move hc.mem hn hlength
  refine ⟨_, ?_, hmoved⟩
  have hpersisted : assertPositivePosition (some record.position) true = .ok record.position :=
    if_pos hc.positive
  have hrequested : assertPositivePosition (position.getD (some record.position)) false = .ok q := by
    rw [hposition]
    exact if_pos hq
  have hnext : highestPositionInScope (rows.map (outOfWay row)) s + 1 =
      ((lists s).length : ℤ) + 1 := by
    rw [highest_outOfWay hs h hc.mem, h.highest_eq]
  have hbefore : beforeUpdate rows record request = .ok (rows.map (closedRow row),
      ⟨some (some (((lists s).length : ℤ) + 1)), some s⟩) := by
    simp only [beforeUpdate, hchanges, Option.isNone_some, Bool.and_false, hpersisted, hrequested,
      bind, Except.bind, h.moveOutOfWay_ok hc, hassigned, h.close_ok hc habove, hnext,
      if_neg hend.symm]
    rfl
  have hplace := h.place_ok hc.mem hn hlength (closedRow row)
    (fun r => { r with scope := s, position := ((lists s).length : ℤ) + 1 })
    (by rw [closedRow, if_pos rfl])
    (fun r hr hid => by
      rw [closedRow_of_ne hid]
      by_cases hscope : r.scope = s
      · rw [closeGap_of_scope fun hrow => hs (hscope.symm.trans hrow), h.openGap_end hr]
      · rw [openGap_of_scope]
        rw [closeGap_scope]
        exact hscope)
    (by rw [closedRow, if_pos rfl]) hc.id
  simp only [update, hbefore, bind, Except.bind, Option.getD_some, hplace]
  exact if_pos (any_moved hc.mem hc.id _ _)

end

end

/-! ### What is asked of an operation -/

theorem nodup (h : Represents rows lists) (s : σ) : (lists s).Nodup := by
  refine nodup_iff_injective_get.mpr fun i j hij => ?_
  have hi : (lists s)[(i : ℕ)]? = some ((lists s).get i) := getElem?_eq_getElem i.2
  have hj : (lists s)[(j : ℕ)]? = some ((lists s).get i) := by
    rw [hij]
    exact getElem?_eq_getElem j.2
  exact Fin.ext (h.index_inj hi hj).2

theorem notMem_of_new (h : Represents rows lists) (hnew : ∀ r ∈ rows, r.id ≠ id) (s : σ) :
    id ∉ lists s := by
  intro hid
  obtain ⟨n, hn⟩ := mem_iff_getElem?.mp hid
  exact hnew _ (h.row_of_index hn) rfl

theorem takeOut_eq (h : Represents rows lists) (hn : (lists s)[n]? = some id) (t : σ) :
    takeOut lists s n t = (lists t).erase id := by
  by_cases ht : t = s
  · rw [ht, takeOut, Function.update_self]
    obtain ⟨hlt, hget⟩ := List.getElem?_eq_some_iff.mp hn
    rw [← hget, (h.nodup s).erase_getElem]
  · rw [takeOut, Function.update_of_ne ht, erase_of_not_mem]
    intro hid
    obtain ⟨m, hm⟩ := mem_iff_getElem?.mp hid
    exact ht (h.index_inj hm hn).1

theorem erase_insertIdx {l : List ι} (hid : id ∉ l) (hn : n ≤ l.length) :
    (l.insertIdx n id).erase id = l := by
  induction l generalizing n with
  | nil =>
    obtain rfl : n = 0 := Nat.le_zero.mp hn
    exact erase_cons_head _ _
  | cons a l ih =>
    cases n with
    | zero => exact erase_cons_head _ _
    | succ n =>
      have hne := ne_of_not_mem_cons hid
      have hid' := not_mem_of_not_mem_cons hid
      rw [insertIdx_succ_cons, erase_cons_tail (by simpa using hne.symm),
        ih hid' (Nat.le_of_succ_le_succ hn)]

theorem putIn_erase (hid : ∀ t, id ∉ lists t) (hn : n ≤ (lists s).length) (t : σ) :
    (putIn lists s n id t).erase id = lists t := by
  by_cases ht : t = s
  · rw [ht, putIn, Function.update_self, erase_insertIdx (hid s) hn]
  · rw [putIn, Function.update_of_ne ht, erase_of_not_mem (hid t)]

theorem placed_putIn (h' : Represents rows' (putIn lists s n id)) (hn : n ≤ (lists s).length) :
    (⟨id, s, max 1 (min ((n : ℤ) + 1) (idsOf rows' s).length)⟩ : Row ι σ) ∈ rows' := by
  have hlength : (idsOf rows' s).length = (lists s).length + 1 := by
    rw [h'.idsOf_eq, putIn, Function.update_self, length_insertIdx_of_le_length hn]
  have hclamp : max 1 (min ((n : ℤ) + 1) (idsOf rows' s).length) = n + 1 := by
    omega
  rw [hclamp]
  refine h'.row_of_index ?_
  rw [putIn, Function.update_self, getElem?_insertIdx_self, if_pos hn]

variable {op : ListOp ι σ}

section
variable (h : Represents rows lists)
include h

theorem kept_insert (hnew : ∀ r ∈ rows, r.id ≠ id)
    (hn : n ≤ (lists s).length) (h' : Represents rows' (putIn lists s n id))
    (hid : op.id = id) (hwants : op.wants rows = some (s, (n : ℤ) + 1)) : Kept rows rows' op where
  compact := h'.compact
  others := by
    intro t
    rw [h'.idsOf_eq, h.idsOf_eq, hid, putIn_erase (h.notMem_of_new hnew) hn,
      erase_of_not_mem (h.notMem_of_new hnew t)]
  placed := by
    intro t q hq
    obtain ⟨rfl, rfl⟩ := Prod.mk.inj (Option.some.inj (hwants.symm.trans hq))
    rw [hid]
    exact placed_putIn h' hn
  gone := by
    intro hnone
    rw [hwants] at hnone
    cases hnone

theorem kept_move (hn : (lists row.scope)[n]? = some row.id)
    (hm : m ≤ (takeOut lists row.scope n s).length)
    (h' : Represents rows' (putIn (takeOut lists row.scope n) s m row.id))
    (hid : op.id = row.id) (hwants : op.wants rows = some (s, q))
    (hq : max 1 (min q (takeOut lists row.scope n s).length.succ) = m + 1) :
    Kept rows rows' op where
  compact := h'.compact
  others := by
    intro t
    rw [h'.idsOf_eq, h.idsOf_eq, hid, putIn_erase (fun t => ?_) hm, h.takeOut_eq hn]
    rw [h.takeOut_eq hn]
    exact (h.nodup t).not_mem_erase
  placed := by
    intro t q' hq'
    obtain ⟨rfl, rfl⟩ := Prod.mk.inj (Option.some.inj (hwants.symm.trans hq'))
    have hplaced := placed_putIn h' hm
    have hlength : (idsOf rows' s).length = (takeOut lists row.scope n s).length.succ := by
      rw [h'.idsOf_eq, putIn, Function.update_self, length_insertIdx_of_le_length hm]
    rw [hlength] at hplaced ⊢
    rw [hid, hq]
    rwa [show max 1 (min ((m : ℤ) + 1) (takeOut lists row.scope n s).length.succ) = m + 1 by
      omega] at hplaced
  gone := by
    intro hnone
    rw [hwants] at hnone
    cases hnone

theorem kept_erase (hn : (lists row.scope)[n]? = some row.id)
    (h' : Represents rows' (takeOut lists row.scope n)) (hid : op.id = row.id)
    (hwants : op.wants rows = none) : Kept rows rows' op where
  compact := h'.compact
  others := by
    intro t
    rw [h'.idsOf_eq, h.idsOf_eq, hid, h.takeOut_eq hn, erase_of_not_mem]
    exact (h.nodup t).not_mem_erase
  placed := by
    intro t q hq
    rw [hwants] at hq
    cases hq
  gone := by
    rintro - r hr hid'
    obtain ⟨k, hk, -⟩ := (h'.mem r).mp hr
    rw [h.takeOut_eq hn, hid', hid] at hk
    exact (h.nodup _).not_mem_erase (mem_iff_getElem?.mpr ⟨k, hk⟩)

section
variable (hrow : row ∈ rows)
include hrow

theorem kept_self (hid : op.id = row.id) (hwants : op.wants rows = some (row.scope, row.position)) :
    Kept rows rows op where
  compact := h.compact
  others := fun _ => rfl
  placed := by
    intro t q hq
    obtain ⟨rfl, rfl⟩ := Prod.mk.inj (Option.some.inj (hwants.symm.trans hq))
    obtain ⟨n, hn, hposition⟩ := (h.mem row).mp hrow
    obtain ⟨hlt, -⟩ := List.getElem?_eq_some_iff.mp hn
    rw [h.idsOf_eq, hid, show max 1 (min row.position ((lists row.scope).length : ℤ)) =
      row.position by omega]
    exact hrow
  gone := by
    intro hnone
    rw [hwants] at hnone
    cases hnone

/-! ### Each operation -/

section
variable {record : Row ι σ} (hid : row.id = record.id)
include hid

theorem find_row : rows.find? (·.id = record.id) = some row := by
  cases hfind : rows.find? (·.id = record.id) with
  | none => exact absurd (decide_eq_true hid) (find?_eq_none.mp hfind row hrow)
  | some r =>
    have hr : r.id = record.id := by simpa using find?_some hfind
    rw [h.row_eq hrow (mem_of_find?_eq_some hfind) (hr.trans hid.symm)]

theorem wants_update (request : UpdateRequest σ) {target : σ}
    (hscope : request.scope.getD row.scope = target) :
    (ListOp.update record request).wants rows = some (target, (request.position.getD none).getD
      (if target = row.scope then row.position else (lists target).length + 1)) := by
  rw [← hscope, ← h.idsOf_eq]
  show (rows.find? (·.id = record.id)).map _ = _
  rw [h.find_row hrow hid]
  rfl

theorem performs_unchanged (hscope : (changesOf record request).scope = none)
    (hposition : (changesOf record request).position = none)
    (hsame : request.scope.isSome → row.scope = record.scope)
    (hat : request.position.isSome → row.position = record.position) :
    ∃ rows' lists', perform rows (.update record request) = .ok rows' ∧
      Represents rows' lists' ∧ Kept rows rows' (.update record request) := by
  have hstay : request.scope.getD row.scope = row.scope := by
    cases hs : request.scope with
    | none => rfl
    | some s =>
      have hs' := Option.filter_eq_none_iff.mp hscope s hs
      rw [decide_eq_true_eq, not_not] at hs'
      exact hs'.trans (hsame (hs ▸ rfl)).symm
  have hkeep : (request.position.getD none).getD row.position = row.position := by
    cases hq : request.position with
    | none => rfl
    | some q =>
      have hq' := Option.filter_eq_none_iff.mp hposition q hq
      rw [decide_eq_true_eq, not_not] at hq'
      rw [hq']
      exact (hat (hq ▸ rfl)).symm
  have hwants := h.wants_update hrow hid request hstay
  rw [if_pos rfl, hkeep] at hwants
  refine ⟨rows, lists, ?_, h, h.kept_self hrow hid.symm hwants⟩
  have hbefore : beforeUpdate rows record request = .ok (rows, changesOf record request) := by
    simp only [beforeUpdate, hscope, hposition]
    rfl
  simp only [perform, update, hbefore, bind, Except.bind, hscope, hposition]
  rfl

end

end

end

theorem scope_kept {record : Row ι σ} (hc : Current rows record row)
    (hscope : (changesOf record request).scope = none) :
    request.scope.getD row.scope = row.scope := by
  cases hs : request.scope with
  | none => rfl
  | some s =>
    have hs' := Option.filter_eq_none_iff.mp hscope s hs
    rw [decide_eq_true_eq, not_not] at hs'
    exact hs'.trans hc.scope.symm

section
variable (h : Represents rows lists) {record : Row ι σ} (hc : Current rows record row)
include h hc

theorem performs_within {p : ℤ}
    (hscope : (changesOf record request).scope = none)
    (hposition : (changesOf record request).position = some (some p)) (hp : 1 ≤ p)
    (hle : p ≤ (lists row.scope).length)
    (hbelow : p < record.position → ∀ r ∈ rows, r.scope = row.scope → r.id ≠ row.id →
      p ≤ r.position → (r.position < record.position ↔ r.position < row.position))
    (habove : record.position < p → ∀ r ∈ rows, r.scope = row.scope → r.id ≠ row.id →
      r.position ≤ p → (record.position < r.position ↔ row.position < r.position)) :
    ∃ rows' lists', perform rows (.update record request) = .ok rows' ∧
      Represents rows' lists' ∧ Kept rows rows' (.update record request) := by
  obtain ⟨n, hn, -⟩ := (h.mem row).mp hc.mem
  obtain ⟨m, rfl⟩ : ∃ m : ℕ, p = m + 1 := ⟨(p - 1).toNat, by omega⟩
  have hm : m < (lists row.scope).length := by omega
  have hlength := length_takeOut_self hn
  obtain ⟨hset, hne⟩ := Option.filter_eq_some_iff.mp hposition
  have hne' : (m : ℤ) + 1 ≠ record.position := fun heq =>
    of_decide_eq_true hne (congrArg some heq)
  have hchanges : changesOf record request = ⟨some (some ((m : ℤ) + 1)), none⟩ := by
    rw [← hposition, ← hscope]
  obtain ⟨rows', hok, hrows'⟩ := h.update_within hc hn hchanges hne' hm hbelow habove
  have hwants := h.wants_update hc.mem hc.id request (scope_kept hc hscope)
  rw [hset] at hwants
  exact ⟨rows', _, hok, hrows', h.kept_move hn (by omega) hrows' hc.id.symm hwants
    (by simp only [Option.getD_some]; omega)⟩

section
variable (habove : AboveAlike rows record row)
  (hscope : (changesOf record request).scope = some s)
include habove hscope

theorem performs_across (hassigned : request.posAssigned = true) {p : ℤ}
    (hset : request.position = some (some p))
    (hp : 1 ≤ p) (hle : p ≤ (lists s).length + 1) :
    ∃ rows' lists', perform rows (.update record request) = .ok rows' ∧
      Represents rows' lists' ∧ Kept rows rows' (.update record request) := by
  obtain ⟨n, hn, -⟩ := (h.mem row).mp hc.mem
  obtain ⟨m, rfl⟩ : ∃ m : ℕ, p = m + 1 := ⟨(p - 1).toNat, by omega⟩
  obtain ⟨hs, hne⟩ := Option.filter_eq_some_iff.mp hscope
  have hne' : s ≠ row.scope := by
    rw [hc.scope]
    exact of_decide_eq_true hne
  have hposition : (changesOf record request).position.getD (some record.position) =
      some ((m : ℤ) + 1) := by
    show ((request.position.filter _).getD _) = _
    rw [hset]
    by_cases heq : some ((m : ℤ) + 1) = some record.position
    · rw [Option.filter_some_neg (by simpa using heq), Option.getD_none, heq]
    · rw [Option.filter_some_pos (by simpa using heq), Option.getD_some]
  have hchanges : changesOf record request = ⟨(changesOf record request).position, some s⟩ := by
    rw [← hscope]
  obtain ⟨rows', hok, hrows'⟩ := h.update_across hc habove hn hassigned hchanges hposition hne'
    (m := m) (by omega)
  have hscope' : request.scope.getD row.scope = s := by rw [hs]; rfl
  have hwants := h.wants_update hc.mem hc.id request hscope'
  rw [hset] at hwants
  have hlength : (takeOut lists row.scope n s).length = (lists s).length := by
    rw [takeOut_of_ne hne']
  exact ⟨rows', _, hok, hrows', h.kept_move hn (by omega) hrows' hc.id.symm hwants
    (by simp only [Option.getD_some]; omega)⟩

theorem performs_append (hassigned : request.posAssigned = false)
    (hend : record.position ≠ (lists s).length + 1)
    (hgiven : ∀ q, request.position = some q → ∃ p, q = some p ∧ ((lists s).length + 1 : ℤ) ≤ p) :
    ∃ rows' lists', perform rows (.update record request) = .ok rows' ∧
      Represents rows' lists' ∧ Kept rows rows' (.update record request) := by
  obtain ⟨n, hn, -⟩ := (h.mem row).mp hc.mem
  obtain ⟨hs, hne⟩ := Option.filter_eq_some_iff.mp hscope
  have hne' : s ≠ row.scope := by
    rw [hc.scope]
    exact of_decide_eq_true hne
  have hchanges : changesOf record request = ⟨(changesOf record request).position, some s⟩ := by
    rw [← hscope]
  obtain ⟨q, hq, hposition⟩ : ∃ q, 0 < q ∧
      (changesOf record request).position.getD (some record.position) = some q := by
    show ∃ q, 0 < q ∧ (request.position.filter _).getD _ = _
    cases hset : request.position with
    | none => exact ⟨_, hc.positive, rfl⟩
    | some q =>
      obtain ⟨p, rfl, hp⟩ := hgiven q hset
      refine ⟨p, by omega, ?_⟩
      by_cases heq : some p = some record.position
      · rw [Option.filter_some_neg (by simpa using heq), Option.getD_none, heq]
      · rw [Option.filter_some_pos (by simpa using heq), Option.getD_some]
  obtain ⟨rows', hok, hrows'⟩ := h.update_append hc habove hn hassigned hchanges hposition hq hne'
    hend
  have hscope' : request.scope.getD row.scope = s := by rw [hs]; rfl
  have hwants := h.wants_update hc.mem hc.id request hscope'
  rw [if_neg hne'] at hwants
  have hlength : (takeOut lists row.scope n s).length = (lists s).length := by
    rw [takeOut_of_ne hne']
  refine ⟨rows', _, hok, hrows', h.kept_move hn (by omega) hrows' hc.id.symm hwants ?_⟩
  cases hset : request.position with
  | none =>
    simp only [Option.getD_none]
    omega
  | some q =>
    obtain ⟨p, rfl, hp⟩ := hgiven q hset
    simp only [Option.getD_some]
    omega

end

end

/-- **An operation that fits its table** does what is asked. -/
theorem performs (h : Represents rows lists) (hop : Fits rows op) :
    ∃ rows' lists', perform rows op = .ok rows' ∧ Represents rows' lists' ∧ Kept rows rows' op := by
  cases op with
  | create id scope position =>
    obtain ⟨hnew, hposition⟩ := hop
    rw [h.idsOf_eq] at hposition
    have hwants : (ListOp.create id scope position).wants rows =
        some (scope, position.getD ((lists scope).length + 1)) := by
      rw [← h.idsOf_eq]
      rfl
    obtain ⟨n, hn, hat⟩ : ∃ n : ℕ, n ≤ (lists scope).length ∧
        position.getD ((lists scope).length + 1) = n + 1 := by
      cases position with
      | none => exact ⟨(lists scope).length, le_rfl, rfl⟩
      | some q =>
        obtain ⟨hq, hle⟩ := hposition q rfl
        exact ⟨(q - 1).toNat, by omega, by simp only [Option.getD_some]; omega⟩
    obtain ⟨rows', hok, hrows'⟩ := h.create_ok hnew hn hat
    exact ⟨rows', _, hok, hrows', h.kept_insert hnew hn hrows' rfl (hwants.trans (by rw [hat]))⟩
  | destroy record =>
    obtain ⟨row, hc, habove⟩ := hop
    obtain ⟨n, hn, -⟩ := (h.mem row).mp hc.mem
    obtain ⟨rows', hok, hrows'⟩ := h.destroy_ok hc habove hn
    exact ⟨rows', _, hok, hrows', h.kept_erase hn hrows' hc.id.symm rfl⟩
  | update record request =>
    obtain ⟨row, hrow, hid, hop⟩ := hop
    cases hscope : (changesOf record request).scope with
    | none =>
      cases hposition : (changesOf record request).position with
      | none =>
        rw [hscope, hposition] at hop
        exact h.performs_unchanged hrow hid hscope hposition hop.1 hop.2
      | some q =>
        rw [hscope, hposition] at hop
        obtain ⟨hc, p, rfl, hp, hle, hbelow, habove⟩ := hop
        rw [h.idsOf_eq] at hle
        exact h.performs_within hc hscope hposition hp hle hbelow habove
    | some s =>
      rw [hscope] at hop
      obtain ⟨hc, habove, hop⟩ := hop
      rw [h.idsOf_eq] at hop
      split at hop
      next hassigned =>
        obtain ⟨p, hset, hp, hle⟩ := hop
        exact h.performs_across hc habove hscope hassigned hset hp hle
      next hassigned =>
        exact h.performs_append hc habove hscope (Bool.eq_false_iff.mpr hassigned) hop.1 hop.2

end Represents

theorem represents_nil : Represents ([] : List (Row ι σ)) fun _ => [] where
  ids := nodup_nil
  mem := by simp

/-- **Gap-less lists**: in a run of operations that fit their tables, every operation succeeds
    and does what is asked. -/
theorem acts_as_list (ops : List (ListOp ι σ)) (hfits : Along tableStep Fits [] ops) :
    Along tableStep Saves [] ops := by
  refine along_of_invariant (I := fun rows => ∃ lists, Represents rows lists) ?_ ops
    ⟨_, represents_nil⟩ hfits
  rintro rows op ⟨lists, h⟩ hop
  obtain ⟨rows', lists', hok, h', hkept⟩ := h.performs hop
  refine ⟨⟨rows', hok, hkept⟩, ?_⟩
  rintro after hafter
  cases hafter
  rw [hok]
  exact ⟨lists', h'⟩

/-- Two records in a list, of which one is moved to the other's place, and then to the other
    list and its start. -/
def movingTasks : List (ListOp ℕ ℕ) :=
  [.create 1 0 none, .create 2 0 (some 1), .update ⟨1, 0, 2⟩ ⟨some (some 1), none, true⟩,
    .update ⟨2, 0, 2⟩ ⟨none, some 5, false⟩, .update ⟨1, 0, 1⟩ ⟨some (some 1), some 5, true⟩,
    .destroy ⟨2, 5, 2⟩]

theorem acts_as_list_moving :
    Along tableStep Fits [] movingTasks ∧ Along tableStep Saves [] movingTasks := by
  have hfits : Along tableStep Fits [] movingTasks := by
    refine ⟨⟨by decide, by decide⟩, ⟨by decide, ?_⟩, ⟨⟨1, 0, 2⟩, by decide, rfl, ?_⟩,
      ⟨⟨2, 0, 2⟩, by decide, rfl, ?_⟩, ⟨⟨1, 0, 1⟩, by decide, rfl, ?_⟩, ⟨⟨2, 5, 2⟩, ?_, ?_⟩,
      trivial⟩
    · rintro q hq
      cases hq
      decide
    · refine ⟨⟨by decide, rfl, rfl, by decide⟩, 1, rfl, by decide, by decide, ?_, ?_⟩
      · exact fun _ r _ _ _ _ => Iff.rfl
      · exact fun _ r _ _ _ _ => Iff.rfl
    · exact ⟨⟨by decide, rfl, rfl, by decide⟩, fun r _ _ _ => Iff.rfl, by decide, nofun⟩
    · exact ⟨⟨by decide, rfl, rfl, by decide⟩, fun r _ _ _ => Iff.rfl, 1, rfl, by decide, by decide⟩
    · exact ⟨by decide, rfl, rfl, by decide⟩
    · exact fun r _ _ _ => Iff.rfl
  exact ⟨hfits, acts_as_list movingTasks hfits⟩

/-- A record that is first in its list and goes to an empty one: its row is at −1 there. -/
theorem first_to_empty :
    ¬ Along tableStep Saves [] ([.create 1 0 none, .update ⟨1, 0, 1⟩ ⟨none, some 5, false⟩] :
      List (ListOp ℕ ℕ)) := by
  rintro ⟨-, ⟨rows', hok, hkept⟩, -⟩
  have hrows : rows' = [⟨1, 5, -1⟩] := by
    have hresult : perform [⟨1, 0, 1⟩] (.update ⟨1, 0, 1⟩ ⟨none, some 5, false⟩) =
        (.ok [⟨1, 5, -1⟩] : Except String (List (Row ℕ ℕ))) := rfl
    exact Except.ok.inj (hok.symm.trans hresult)
  subst hrows
  exact absurd (hkept.compact 5) (by decide)

end Velocious.ActsAsList
