/-
  The trees of join descriptors.

  * `mergeJoinValue` keeps a flag over a tree, and merges two trees by their relationships only.
  * `JoinConsistent`: in no array do two entries write a relationship differently, one with nothing
    below and one with paths, or with a relationship below that has different paths in turn.
  * `join_keeps`, `join_last`: the trees of a descriptor's rearrangements have all its paths
    exactly where it is consistent.
-/
import Velocious.Database.Query.RelationshipTreesNormal

namespace Velocious.RelationshipTrees

open Foundation List

/-! ## Merging -/

def joinMerge : Option Json → Option Json → Option Json
  | existing, none => existing
  | existing, some incoming => some (mergeJoinValue existing incoming)

theorem spread_merged {t r : Fields} (ht : Distinct t) (hr : Distinct r) :
    Merged (fun a b => b.or a) t r (spread t r) := by
  induction r generalizing t with
  | nil => exact ⟨ht, fun s => by simp [spread]⟩
  | cons field r ih =>
    obtain ⟨s, v⟩ := field
    obtain ⟨hs, hr⟩ := nodup_cons.1 hr
    obtain ⟨hdistinct, hlookup⟩ := ih (distinct_setField (k := s) (v := v) ht) hr
    refine ⟨hdistinct, fun s' => (hlookup s').trans ?_⟩
    rw [lookup_cons, lookup_setField]
    by_cases h : s' = s
    · simp [h, lookup_eq_none hs]
    · simp [h]

theorem Normal.spread {t r : Fields} (ht : Normal (.obj t)) (hr : Normal (.obj r)) :
    Normal (.obj (spread t r)) := by
  have h := spread_merged ht.distinct hr.distinct
  refine normal_of_lookup h.distinct fun s v hv => ?_
  rw [h.lookup s] at hv
  cases hlookup : r.lookup s with
  | some u =>
    rw [hlookup] at hv
    cases hv
    exact hr.value hlookup
  | none =>
    rw [hlookup] at hv
    exact ht.value hv

theorem Normal.mergeJoinValue {existing : Option Json} {incoming : Json}
    (he : ∀ u, existing = some u → Normal u) (hi : Normal incoming) :
    Normal (mergeJoinValue existing incoming) := by
  cases existing with
  | none => exact hi
  | some u =>
    cases he u rfl with
    | @flag b =>
      cases b with
      | false => exact hi
      | true => exact .flag
    | tree ht hvalues =>
      cases hi with
      | @flag b => cases b <;> exact .flag
      | tree hr hvalues' => exact (Normal.tree ht hvalues).spread (.tree hr hvalues')

theorem mergeJoinField_merged {t : Fields} {s : String} {v : Json} (ht : Distinct t) :
    Merged joinMerge t [(s, v)] (mergeJoinField t s v) := by
  refine ⟨distinct_setField ht, fun s' => ?_⟩
  rw [mergeJoinField, lookup_setField, lookup_cons]
  by_cases h : s' = s
  · simp [h, joinMerge]
  · simp [h, joinMerge]

theorem lawful_joining : Lawful joining joinMerge where
  addField t s v hs := by
    simp only [joining, mergeJoinField, lookup_eq_none hs]
    exact setField_of_not_mem hs
  addName t s ht := mergeJoinField_merged ht
  addRecord t r ht hr := by
    induction r generalizing t with
    | nil => exact ⟨ht, fun s => rfl⟩
    | cons field r ih =>
      obtain ⟨s, v⟩ := field
      obtain ⟨hs, hr⟩ := nodup_cons.1 hr
      have hfield := mergeJoinField_merged (s := s) (v := v) ht
      obtain ⟨hdistinct, hlookup⟩ := ih _ hfield.distinct hr
      refine ⟨hdistinct, fun s' => (hlookup s').trans ?_⟩
      rw [hfield.lookup, lookup_cons, lookup_cons]
      by_cases h : s' = s
      · simp [h, lookup_eq_none hs, joinMerge]
      · simp [h, joinMerge]
  normal a b v ha hb h := by
    cases b with
    | none => exact ha v h
    | some incoming =>
      cases h
      exact Normal.mergeJoinValue ha (hb incoming rfl)

section Merges

variable {u v : Json} {t r t' : Fields} {p : List String}

theorem writes_spread (ht : Normal (.obj t)) (hr : Normal (.obj r)) {c : String} :
    Writes (.obj (spread t r)) (c :: p) ↔
      if (r.lookup c).isSome then Writes (.obj r) (c :: p) else Writes (.obj t) (c :: p) := by
  have h := spread_merged ht.distinct hr.distinct
  rw [writes_tree h.distinct, h.lookup, writes_tree hr.distinct, writes_tree ht.distinct]
  cases r.lookup c <;> simp

theorem writes_mergeJoinValue_le (hu : Normal u) (hv : Normal v)
    (h : Writes (mergeJoinValue (some u) v) p) : Writes u p ∨ Writes v p := by
  cases hu with
  | @flag b =>
    cases b with
    | false => exact .inr h
    | true => cases h
  | tree ht hvalues =>
    cases hv with
    | @flag b => cases b <;> cases h
    | tree hr hvalues' =>
      cases p with
      | nil => exact absurd rfl h.ne_nil
      | cons c p =>
        have := (writes_spread (.tree ht hvalues) (.tree hr hvalues')).1 h
        split at this
        · exact .inr this
        · exact .inl this

theorem bare_mergeJoinValue_le (hu : Normal u) (hv : Normal v)
    (h : Bare (mergeJoinValue (some u) v) p) : Bare u p ∨ Bare v p := by
  cases hu with
  | @flag b =>
    cases b with
    | false => exact .inr h
    | true => cases h
  | tree ht hvalues =>
    cases hv with
    | @flag b => cases b <;> cases h
    | @tree r hr hvalues' =>
      have hspread := spread_merged ht hr
      cases p with
      | nil => exact absurd rfl h.writes.ne_nil
      | cons c p =>
        have h' := (bare_tree hspread.distinct).1 h
        rw [hspread.lookup] at h'
        rw [bare_tree ht, bare_tree hr]
        cases hlookup : r.lookup c with
        | none =>
          rw [hlookup] at h'
          exact .inl h'
        | some w =>
          rw [hlookup] at h'
          exact .inr h'

theorem isFlag_mergeJoinValue (hv : Normal v) (h : isFlag (mergeJoinValue (some u) v) = true) :
    isFlag u = true ∨ isFlag v = true := by
  cases hv with
  | flag => exact .inr rfl
  | tree =>
    cases u with
    | bool => exact .inl rfl
    | _ => cases h

theorem isFlag_of_incoming {existing : Option Json} {b : Bool} :
    isFlag (mergeJoinValue existing (.bool b)) = true := by
  cases existing with
  | none => rfl
  | some u =>
    cases u with
    | bool b' => cases b' <;> rfl
    | _ => cases b <;> rfl

theorem not_writes_mergeJoinValue {existing : Option Json}
    (he : ∀ u, existing = some u → Normal u) (hv : Normal v) {c : String} (hc : Writes v [c])
    (h : ¬ Writes v (c :: p)) : ¬ Writes (mergeJoinValue existing v) (c :: p) := by
  cases existing with
  | none => exact h
  | some u =>
    cases hv with
    | flag => cases hc
    | @tree r hr hvalues =>
      cases he u rfl with
      | @flag b =>
        cases b with
        | false => exact h
        | true => exact fun h' => by cases h'
      | tree ht hvalues' =>
        intro h'
        have hwrites := (writes_spread (.tree ht hvalues') (.tree hr hvalues)).1 h'
        obtain ⟨w, hw, -⟩ := (writes_tree hr).1 hc
        rw [hw] at hwrites
        exact h hwrites

theorem not_writes_flag (h : isFlag u = true) : ¬ Writes u p := by
  cases u with
  | bool => exact fun h' => by cases h'
  | _ => cases h

end Merges

/-- Where `e'` goes on below a relationship, `e` does not end there; and a relationship there that
    both have has the same paths. -/
def Compatible (e e' : Json) : Prop :=
  ∀ s c, Writes e' [s, c] → ¬ Bare e [s] ∧
    (Writes e [s, c] → ∀ p, Writes e' (s :: c :: p) → Writes e (s :: c :: p))

/-- A name stands in one role throughout. -/
inductive JoinConsistent : Json → Prop
  | name {s} : JoinConsistent (.str s)
  | array {entries} : (∀ e ∈ entries, JoinConsistent e) →
      (∀ e ∈ entries, ∀ e' ∈ entries, Compatible e e') → JoinConsistent (.arr entries)
  | object {fields : Fields} : (∀ s d, (s, d) ∈ fields → isFlag d = false → JoinConsistent d) →
      JoinConsistent (.obj fields)

theorem Compatible.congr {e e' x x' : Json} (hw : ∀ p, Writes x p ↔ Writes e p)
    (hb : ∀ p, Bare x p ↔ Bare e p) (hw' : ∀ p, Writes x' p ↔ Writes e' p)
    (h : Compatible e e') : Compatible x x' := by
  intro s c hx'
  obtain ⟨hbare, hbelow⟩ := h s c ((hw' _).1 hx')
  exact ⟨fun hx => hbare ((hb _).1 hx),
    fun hx p hp => (hw _).2 (hbelow ((hw _).1 hx) p ((hw' _).1 hp))⟩

theorem Rearranged.joinConsistent {d d' : Json} (h : Rearranged d d') (hd : JoinConsistent d) :
    JoinConsistent d' := by
  induction h with
  | perm hperm =>
    cases hd with
    | array hentries hpairs =>
      exact .array (fun e he => hentries e (hperm.mem_iff.2 he))
        fun e he e' he' => hpairs e (hperm.mem_iff.2 he) e' (hperm.mem_iff.2 he')
  | @twice entries e he =>
    cases hd with
    | array hentries hpairs =>
      have hmem : ∀ x ∈ e :: entries, x ∈ entries := by
        intro x hx
        rcases mem_cons.1 hx with rfl | hx
        · exact he
        · exact hx
      exact .array (fun x hx => hentries x (hmem x hx))
        fun x hx x' hx' => hpairs x (hmem x hx) x' (hmem x' hx')
  | @entry before after e e' hstep ih =>
    cases hd with
    | array hentries hpairs =>
      -- each entry has the paths of one there was before
      have hold : ∀ x ∈ before ++ e' :: after, JoinConsistent x ∧ ∃ y ∈ before ++ e :: after,
          (∀ p, Writes x p ↔ Writes y p) ∧ ∀ p, Bare x p ↔ Bare y p := by
        intro x hx
        rcases mem_append.1 hx with hx | hx
        · exact ⟨hentries x (by simp [hx]), x, by simp [hx], fun _ => .rfl, fun _ => .rfl⟩
        · rcases mem_cons.1 hx with rfl | hx
          · exact ⟨ih (hentries e (by simp)), e, by simp, hstep.writes, hstep.bare⟩
          · exact ⟨hentries x (by simp [hx]), x, by simp [hx], fun _ => .rfl, fun _ => .rfl⟩
      refine .array (fun x hx => (hold x hx).1) fun x hx x' hx' => ?_
      obtain ⟨-, y, hy, hw, hb⟩ := hold x hx
      obtain ⟨-, y', hy', hw', -⟩ := hold x' hx'
      exact (hpairs y hy y' hy').congr hw hb hw'
  | @field before after s d d' hstep ih =>
    have hflag : Velocious.RelationshipTrees.isFlag d = false := by cases hstep <;> rfl
    cases hd with
    | object hfields =>
      refine .object fun s' x hx hx' => ?_
      rcases mem_append.1 hx with hx | hx
      · exact hfields s' x (by simp [hx]) hx'
      · rcases mem_cons.1 hx with heq | hx
        · cases heq
          exact ih (hfields s d (by simp) hflag)
        · exact hfields s' x (by simp [hx]) hx'

theorem Rearrangement.joinConsistent {d d' : Json} (h : Rearrangement d d')
    (hd : JoinConsistent d) : JoinConsistent d' := by
  induction h with
  | refl => exact hd
  | tail _ hstep ih => exact hstep.joinConsistent ih

/-! ## What is kept -/

section Entries

variable {t r t' : Fields}

section
variable (h : Merged joinMerge t r t')
include h

theorem lookup_merged_of_some {s : String} {v : Json}
    (hv : r.lookup s = some v) : t'.lookup s = some (mergeJoinValue (t.lookup s) v) := by
  rw [h.lookup, hv]
  rfl

theorem lookup_merged_of_none {s : String}
    (hv : r.lookup s = none) : t'.lookup s = t.lookup s := by
  rw [h.lookup, hv]
  rfl

section
variable (ht : Normal (.obj t)) (hr : Normal (.obj r))
include ht hr

theorem writes_merged_le {p : List String} (hp : Writes (.obj t') p) :
    Writes (.obj t) p ∨ Writes (.obj r) p := by
  cases p with
  | nil => exact absurd rfl hp.ne_nil
  | cons s p =>
    rw [writes_tree ht.distinct, writes_tree hr.distinct]
    obtain ⟨w, hw, hp⟩ := (writes_tree h.distinct).1 hp
    cases hlookup : r.lookup s with
    | none =>
      rw [lookup_merged_of_none h hlookup] at hw
      exact .inl ⟨w, hw, hp⟩
    | some v =>
      rw [lookup_merged_of_some h hlookup] at hw
      cases hw
      rcases hp with rfl | hp
      · exact .inr ⟨v, rfl, .inl rfl⟩
      · cases hold : t.lookup s with
        | none =>
          rw [hold] at hp
          exact .inr ⟨v, rfl, .inr hp⟩
        | some u =>
          rw [hold] at hp
          rcases writes_mergeJoinValue_le (ht.value hold) (hr.value hlookup) hp with hp | hp
          · exact .inl ⟨u, rfl, .inr hp⟩
          · exact .inr ⟨v, rfl, .inr hp⟩

theorem bare_merged_le {p : List String} (hp : Bare (.obj t') p) :
    Bare (.obj t) p ∨ Bare (.obj r) p := by
  cases p with
  | nil => exact absurd rfl hp.writes.ne_nil
  | cons s p =>
    rw [bare_tree ht.distinct, bare_tree hr.distinct]
    obtain ⟨w, hw, hp⟩ := (bare_tree h.distinct).1 hp
    cases hlookup : r.lookup s with
    | none =>
      rw [lookup_merged_of_none h hlookup] at hw
      exact .inl ⟨w, hw, hp⟩
    | some v =>
      rw [lookup_merged_of_some h hlookup] at hw
      cases hw
      cases hold : t.lookup s with
      | none =>
        rw [hold] at hp
        exact .inr ⟨v, rfl, hp⟩
      | some u =>
        rw [hold] at hp
        rcases hp with ⟨rfl, hflag⟩ | hp
        · rcases isFlag_mergeJoinValue (hr.value hlookup) hflag with hflag | hflag
          · exact .inl ⟨u, rfl, .inl ⟨rfl, hflag⟩⟩
          · exact .inr ⟨v, rfl, .inl ⟨rfl, hflag⟩⟩
        · rcases bare_mergeJoinValue_le (ht.value hold) (hr.value hlookup) hp with hp | hp
          · exact .inl ⟨u, rfl, .inr hp⟩
          · exact .inr ⟨v, rfl, .inr hp⟩

theorem writes_merged_head (s : String) :
    Writes (.obj t') [s] ↔ Writes (.obj t) [s] ∨ Writes (.obj r) [s] := by
  refine ⟨writes_merged_le h ht hr, fun hp => ?_⟩
  rw [writes_tree h.distinct]
  rw [writes_tree ht.distinct, writes_tree hr.distinct] at hp
  cases hlookup : r.lookup s with
  | none =>
    rw [hlookup] at hp
    rw [lookup_merged_of_none h hlookup]
    exact hp.resolve_right fun ⟨v, hv, _⟩ => by cases hv
  | some v => exact ⟨_, lookup_merged_of_some h hlookup, .inl rfl⟩

theorem writes_merged (hrt : Compatible (.obj r) (.obj t)) (htr : Compatible (.obj t) (.obj r))
    (p : List String) :
    Writes (.obj t') p ↔ Writes (.obj t) p ∨ Writes (.obj r) p := by
  refine ⟨writes_merged_le h ht hr, fun hp => ?_⟩
  rcases p with - | ⟨s, - | ⟨c, p⟩⟩
  · exact absurd rfl (hp.elim Writes.ne_nil Writes.ne_nil)
  · exact (writes_merged_head h ht hr s).2 hp
  · cases hlookup : r.lookup s with
    | none =>
      rw [writes_tree ht.distinct, writes_tree hr.distinct, hlookup] at hp
      rw [writes_tree h.distinct, lookup_merged_of_none h hlookup]
      exact hp.resolve_right fun ⟨v, hv, _⟩ => by cases hv
    | some v =>
      cases hold : t.lookup s with
      | none =>
        rw [writes_tree ht.distinct, writes_tree hr.distinct, hold] at hp
        rw [writes_tree h.distinct, lookup_merged_of_some h hlookup, hold]
        obtain ⟨w, hw, hp⟩ := hp.resolve_left fun ⟨v, hv, _⟩ => by cases hv
        rw [hlookup] at hw
        cases hw
        exact ⟨_, rfl, hp⟩
      | some u =>
        have hsub (a : Fields) (ha : Normal (.obj a)) {w : Json} (hw : a.lookup s = some w)
            {q : List String} : Writes (.obj a) (s :: c :: q) ↔ Writes w (c :: q) := by
          rw [writes_tree ha.distinct]
          simp [hw]
        have hbare (a : Fields) (ha : Normal (.obj a)) {w : Json} (hw : a.lookup s = some w)
            (hflag : isFlag w = true) : Bare (.obj a) [s] :=
          (bare_tree ha.distinct).2 ⟨w, hw, .inl ⟨rfl, hflag⟩⟩
        refine (writes_tree h.distinct).2 ⟨_, lookup_merged_of_some h hlookup, .inr ?_⟩
        rw [hold]
        have hu := ht.value hold
        have hv := hr.value hlookup
        cases hu with
        | @flag b =>
          -- the other one does not go on
          have hr' := hp.resolve_left fun h' => not_writes_flag rfl ((hsub t ht hold).1 h')
          have hhead : Writes (.obj r) [s, c] := (hsub r hr hlookup).2 ((hsub r hr hlookup).1 hr').head
          exact absurd (hbare t ht hold rfl) (htr s c hhead).1
        | @tree x hx hxs =>
          cases hv with
          | @flag b =>
            have ht' := hp.resolve_right fun h' => not_writes_flag rfl ((hsub r hr hlookup).1 h')
            have hhead : Writes (.obj t) [s, c] := (hsub t ht hold).2 ((hsub t ht hold).1 ht').head
            exact absurd (hbare r hr hlookup rfl) (hrt s c hhead).1
          | @tree y hy hys =>
            refine (writes_spread (.tree hx hxs) (.tree hy hys)).2 ?_
            rw [hsub t ht hold, hsub r hr hlookup] at hp
            split
            · rename_i hsome
              refine hp.elim (fun hp => ?_) id
              obtain ⟨w, hw⟩ := Option.isSome_iff_exists.1 hsome
              have hhead : Writes (.obj y) [c] := (writes_tree hy).2 ⟨w, hw, .inl rfl⟩
              exact (hsub r hr hlookup).1 ((hrt s c ((hsub t ht hold).2 hp.head)).2
                ((hsub r hr hlookup).2 hhead) p ((hsub t ht hold).2 hp))
            · rename_i hnone
              refine hp.elim id fun hp => ?_
              obtain ⟨w, hw, -⟩ := (writes_tree hy).1 hp
              rw [hw] at hnone
              exact absurd rfl hnone

end

end

end Entries

section
variable {m : Merging} {fields t : Fields} (hdistinct : Distinct fields)
  (hfields : List.Forall₂ (FieldOf m) fields t)
include hdistinct hfields

theorem writes_object_le
    (hvalues : ∀ s d tree, (s, d) ∈ fields → isFlag d = false → normalize m d = .ok tree →
      ∀ p, Writes (.obj tree) p → Writes d p) (p : List String) (h : Writes (.obj t) p) :
    Writes (.obj fields) p := by
  have ht : Distinct t := by rwa [Distinct, ← map_fst_of_fieldOf hfields]
  cases p with
  | nil => exact absurd rfl h.ne_nil
  | cons s p =>
    obtain ⟨v, hv, hp⟩ := (writes_tree ht).1 h
    have hmem : s ∈ fields.map Prod.fst := by
      rw [map_fst_of_fieldOf hfields]
      exact mem_map.2 ⟨_, (mem_iff_lookup ht).2 hv, rfl⟩
    obtain ⟨⟨_, d⟩, hd, rfl⟩ := mem_map.1 hmem
    obtain ⟨v', hv', hfield⟩ := lookup_of_fieldOf hfields hdistinct hd
    cases hv.symm.trans hv'
    refine writes_obj.2 ⟨d, hd, hp.imp_right fun hp => ?_⟩
    cases hfield with
    | flag => exact hp
    | tree hflag _ htree => exact hvalues _ d _ hd hflag htree p hp

theorem writes_object_ge {s : String} {p : List String}
    (hvalues : ∀ d tree, (s, d) ∈ fields → isFlag d = false → normalize m d = .ok tree →
      Writes d p → Writes (.obj tree) p) (h : Writes (.obj fields) (s :: p)) :
    Writes (.obj t) (s :: p) := by
  have ht : Distinct t := by rwa [Distinct, ← map_fst_of_fieldOf hfields]
  obtain ⟨d, hmem, hp⟩ := writes_obj.1 h
  obtain ⟨v, hv, hfield⟩ := lookup_of_fieldOf hfields hdistinct hmem
  refine (writes_tree ht).2 ⟨v, hv, hp.imp_right fun hp => ?_⟩
  cases hfield with
  | flag => exact hp
  | tree hflag _ htree => exact hvalues d _ hmem hflag htree hp

theorem bare_object (hvalues : ∀ s d tree, (s, d) ∈ fields → isFlag d = false → normalize m d = .ok tree →
      ∀ p, Bare (.obj tree) p → Bare d p) (p : List String) (h : Bare (.obj t) p) :
    Bare (.obj fields) p := by
  have ht : Distinct t := by rwa [Distinct, ← map_fst_of_fieldOf hfields]
  cases p with
  | nil => exact absurd rfl h.writes.ne_nil
  | cons s p =>
    rw [bare_tree hdistinct]
    obtain ⟨v, hv, hp⟩ := (bare_tree ht).1 h
    have hmem : s ∈ fields.map Prod.fst := by
      rw [map_fst_of_fieldOf hfields]
      exact mem_map.2 ⟨_, (mem_iff_lookup ht).2 hv, rfl⟩
    obtain ⟨⟨_, d⟩, hd, rfl⟩ := mem_map.1 hmem
    obtain ⟨v', hv', hfield⟩ := lookup_of_fieldOf hfields hdistinct hd
    cases hv.symm.trans hv'
    refine ⟨d, (mem_iff_lookup hdistinct).1 hd, ?_⟩
    cases hfield with
    | flag => exact hp
    | tree hflag _ htree =>
      rcases hp with ⟨-, hp⟩ | hp
      · cases hp
      · exact .inr (hvalues _ d _ hd hflag htree p hp)

end

/-- A tree has the paths of its descriptor, and ends where it ends. -/
structure Keeps (t : Fields) (d : Json) : Prop where
  normal : Normal (.obj t)
  writes : ∀ p, Writes (.obj t) p ↔ Writes d p
  bare : ∀ p, Bare (.obj t) p → Bare d p

theorem keeps_nil : Keeps [] (.arr []) where
  normal := .tree nodup_nil fun _ _ hmem => by cases hmem
  writes p := by
    constructor
    · rintro (_ | _ | h | ⟨h, -⟩) <;> cases h
    · intro h
      obtain ⟨e, he, -⟩ := writes_arr.1 h
      cases he
  bare p h := by rcases h with _ | _ | h | ⟨h, -⟩ <;> cases h

theorem keeps_object {m : Merging} {fields t : Fields} (ht : Normal (.obj t))
    (hdistinct : Distinct fields) (hfields : List.Forall₂ (FieldOf m) fields t)
    (hvalues : ∀ s d tree, (s, d) ∈ fields → isFlag d = false → normalize m d = .ok tree →
      Keeps tree d) : Keeps t (.obj fields) where
  normal := ht
  writes p := by
    refine ⟨?_, fun h => ?_⟩
    · exact writes_object_le hdistinct hfields (fun s d tree hmem hflag htree p =>
        ((hvalues s d tree hmem hflag htree).writes p).1) p
    · cases p with
      | nil => exact absurd rfl h.ne_nil
      | cons s p =>
        exact writes_object_ge hdistinct hfields (fun d tree hmem hflag htree =>
          ((hvalues s d tree hmem hflag htree).writes p).2) h
  bare := bare_object hdistinct hfields fun s d tree hmem hflag htree =>
    (hvalues s d tree hmem hflag htree).bare

theorem keeps_join_snoc {entries : List Json} {e : Json} {t r t' : Fields}
    (hpairs : ∀ x ∈ entries ++ [e], ∀ y ∈ entries ++ [e], Compatible x y)
    (ht : Keeps t (.arr entries)) (hr : Keeps r e) (hmerged : Merged joinMerge t r t') :
    Keeps t' (.arr (entries ++ [e])) := by
  have hrt : Compatible (.obj r) (.obj t) := by
    intro s c h
    obtain ⟨x, hx, h⟩ := writes_arr.1 ((ht.writes _).1 h)
    obtain ⟨hbare, -⟩ := hpairs e (by simp) x (by simp [hx]) s c h
    refine ⟨fun h' => hbare (hr.bare _ h'), fun h' p hp => ?_⟩
    obtain ⟨y, hy, hp⟩ := writes_arr.1 ((ht.writes _).1 hp)
    have hy' : Writes y [s, c] := Writes.upTo (p := [s, c]) hp (by simp)
    exact (hr.writes _).2 ((hpairs e (by simp) y (by simp [hy]) s c hy').2
      ((hr.writes _).1 h') p hp)
  have htr : Compatible (.obj t) (.obj r) := by
    intro s c h
    refine ⟨fun h' => ?_, fun h' p hp => ?_⟩
    · obtain ⟨x, hx, h'⟩ := bare_arr.1 (ht.bare _ h')
      exact (hpairs x (by simp [hx]) e (by simp) s c ((hr.writes _).1 h)).1 h'
    · obtain ⟨x, hx, h'⟩ := writes_arr.1 ((ht.writes _).1 h')
      exact (ht.writes _).2 (writes_arr.2 ⟨x, hx, (hpairs x (by simp [hx]) e (by simp) s c
        ((hr.writes _).1 h)).2 h' p ((hr.writes _).1 hp)⟩)
  refine ⟨hmerged.normal lawful_joining ht.normal hr.normal, fun p => ?_, fun p h => ?_⟩
  · rw [writes_merged hmerged ht.normal hr.normal hrt htr, ht.writes, hr.writes, writes_arr,
      writes_arr]
    simp
  · rw [bare_arr]
    rcases bare_merged_le hmerged ht.normal hr.normal h with h | h
    · obtain ⟨x, hx, h⟩ := bare_arr.1 (ht.bare _ h)
      exact ⟨x, by simp [hx], h⟩
    · exact ⟨e, by simp, hr.bare _ h⟩

theorem join_keeps {d : Json} (hd : Descriptor d) (hc : JoinConsistent d) :
    ∃ t, normalizeJoinObject d = .ok t ∧ Keeps t d := by
  induction hd with
  | @name s hs =>
    refine ⟨[(s, .bool true)], by rw [normalizeJoinObject, normalize, if_neg hs.1],
      .tree (by simp [Distinct]) fun _ _ hmem => ?_, fun p => ⟨fun h => ?_, fun h => ?_⟩,
      fun p h => ?_⟩
    · cases mem_singleton.1 hmem
      exact .flag
    · rcases h with _ | _ | hmem | ⟨hmem, h⟩
      · cases mem_singleton.1 hmem
        exact .name
      · cases mem_singleton.1 hmem
        cases h
    · cases h
      exact .field (mem_singleton.2 rfl)
    · rcases h with _ | _ | hmem | ⟨hmem, h⟩
      · cases mem_singleton.1 hmem
        exact .name
      · cases mem_singleton.1 hmem
        cases h
  | @array entries hentries harrays ih =>
    cases hc with
    | array hconsistent hpairs =>
      induction entries using List.reverseRecOn with
      | nil => exact ⟨[], rfl, keeps_nil⟩
      | append_singleton entries e hind =>
        obtain ⟨t, ht, htk⟩ := hind (fun x hx => hentries x (by simp [hx]))
          (fun x hx => harrays x (by simp [hx])) (fun x hx => ih x (by simp [hx]))
          (fun x hx => hconsistent x (by simp [hx]))
          fun x hx x' hx' => hpairs x (by simp [hx]) x' (by simp [hx'])
        obtain ⟨r, hr, hrk⟩ := ih e (by simp) (hconsistent e (by simp))
        obtain ⟨t', ht', hmerged⟩ := normalize_snoc lawful_joining (hentries e (by simp))
          (harrays e (by simp)) ht hr htk.normal.distinct hrk.normal.distinct
        exact ⟨t', ht', keeps_join_snoc hpairs htk hrk hmerged⟩
  | @object fields hdistinct hfields ih =>
    cases hc with
    | object hconsistent =>
      obtain ⟨t, ht, htn, hft⟩ := normalize_object_ok lawful_joining (.object hdistinct hfields)
      refine ⟨t, ht, keeps_object htn hdistinct.1 hft fun s d tree hmem hflag htree => ?_⟩
      obtain ⟨tree', htree', hkeeps⟩ := ih s d hmem hflag (hconsistent s d hmem hflag)
      cases htree.symm.trans htree'
      exact hkeeps

/-! ## What is lost -/

theorem join_heads {d : Json} (hd : Descriptor d) {t : Fields} (ht : normalizeJoinObject d = .ok t) :
    (∀ p, Writes (.obj t) p → Writes d p) ∧ ∀ s, Writes d [s] → Writes (.obj t) [s] := by
  induction hd generalizing t with
  | @name s hs =>
    obtain ⟨t', ht', hkeeps⟩ := join_keeps (.name hs) .name
    cases ht.symm.trans ht'
    exact ⟨fun p => (hkeeps.writes p).1, fun s' => (hkeeps.writes _).2⟩
  | @array entries hentries harrays ih =>
    induction entries using List.reverseRecOn generalizing t with
    | nil =>
      cases ht
      refine ⟨fun p h => ?_, fun s h => ?_⟩
      · rcases h with _ | _ | h | ⟨h, -⟩ <;> cases h
      · obtain ⟨e, he, -⟩ := writes_arr.1 h
        cases he
    | append_singleton entries e hind =>
      have hentries' : ∀ x ∈ entries, Descriptor x := fun x hx => hentries x (by simp [hx])
      have harrays' : ∀ x ∈ entries, isArray x = false := fun x hx => harrays x (by simp [hx])
      obtain ⟨t₀, ht₀, htn⟩ := normalize_ok lawful_joining (.array hentries' harrays')
      obtain ⟨r, hr, hrn⟩ := normalize_ok lawful_joining (hentries e (by simp))
      obtain ⟨t', ht', hmerged⟩ := normalize_snoc lawful_joining (hentries e (by simp))
        (harrays e (by simp)) ht₀ hr htn.distinct hrn.distinct
      cases ht.symm.trans ht'
      obtain ⟨hle, hheads⟩ := hind hentries' harrays' (fun x hx => ih x (by simp [hx])) ht₀
      obtain ⟨hle', hheads'⟩ := ih e (by simp) hr
      refine ⟨fun p h => ?_, fun s h => ?_⟩
      · rw [writes_arr]
        rcases writes_merged_le hmerged htn hrn h with h | h
        · obtain ⟨x, hx, h⟩ := writes_arr.1 (hle p h)
          exact ⟨x, by simp [hx], h⟩
        · exact ⟨e, by simp, hle' p h⟩
      · obtain ⟨x, hx, h⟩ := writes_arr.1 h
        rw [writes_merged_head hmerged htn hrn]
        rcases mem_append.1 hx with hx | hx
        · exact .inl (hheads s (writes_arr.2 ⟨x, hx, h⟩))
        · exact .inr (hheads' s (mem_singleton.1 hx ▸ h))
  | @object fields hdistinct hfields ih =>
    obtain ⟨t', ht', -, hft⟩ := normalize_object_ok lawful_joining (.object hdistinct hfields)
    cases ht.symm.trans ht'
    refine ⟨writes_object_le hdistinct.1 hft fun s d tree hmem hflag htree =>
      (ih s d hmem hflag htree).1, fun s h => ?_⟩
    exact writes_object_ge hdistinct.1 hft (fun d _ _ _ _ h => absurd rfl h.ne_nil) h

theorem join_heads_entry {e : Json} (he : Descriptor e) (harray : isArray e = false) {r : Fields}
    (hr : normalizeJoinObject e = .ok r) {s c : String} (h : Writes e [s, c]) :
    Writes (.obj r) [s, c] := by
  cases he with
  | name => cases h
  | array => cases harray
  | @object fields hdistinct hfields =>
    obtain ⟨t, ht, -, hft⟩ := normalize_object_ok lawful_joining (.object hdistinct hfields)
    cases hr.symm.trans ht
    exact writes_object_ge hdistinct.1 hft (fun d tree hmem hflag htree =>
      (join_heads (hfields s d hmem hflag) htree).2 c) h

theorem flag_of_bare {m : Merging} {merge : Option Json → Option Json → Option Json}
    (hm : Lawful m merge) {e : Json} (he : Descriptor e) (harray : isArray e = false) {r : Fields}
    (hr : normalize m e = .ok r) {s : String} (h : Bare e [s]) :
    ∃ b, r.lookup s = some (.bool b) := by
  cases he with
  | @name s hs =>
    cases h
    rw [normalize, if_neg hs.1] at hr
    cases hr
    exact ⟨true, by simp⟩
  | array => cases harray
  | @object fields hdistinct hfields =>
    obtain ⟨t, ht, -, hft⟩ := normalize_object_ok hm (.object hdistinct hfields)
    cases hr.symm.trans ht
    obtain ⟨d, hd, ⟨-, hflag⟩ | hbare⟩ := bare_obj.1 h
    · obtain ⟨v, hv, hfield⟩ := lookup_of_fieldOf hft hdistinct.1 hd
      cases hfield with
      | flag => exact ⟨_, hv⟩
      | tree hflag' => exact absurd hflag (by simp [hflag'])
    · exact absurd rfl hbare.writes.ne_nil

/-- Some arrangement of a descriptor has a tree without one of its paths. -/
def Loses (d : Json) : Prop :=
  ∃ d', Rearrangement d d' ∧ ∃ t, normalizeJoinObject d' = .ok t ∧
    ∃ p, Writes d p ∧ ¬ Writes (.obj t) p

section Losing

variable {entries : List Json} (hd : Descriptor (.arr entries)) {e e' : Json} (he : e ∈ entries)
  (hmove : Rearrangement e e') {r : Fields} (hr : normalizeJoinObject e' = .ok r)

include hd he hmove hr

theorem join_last : ∃ t t', Normal (.obj t) ∧ Normal (.obj r) ∧
    normalizeJoinObject (.arr (entries ++ [e'])) = .ok t' ∧ Merged joinMerge t r t' := by
  cases hd with
  | array hentries harrays =>
    have he' := hmove.descriptor (hentries e he)
    obtain ⟨t, ht, htn⟩ := normalize_ok lawful_joining (.array hentries harrays)
    obtain ⟨r', hr', hrn⟩ := normalize_ok lawful_joining he'
    cases hr.symm.trans hr'
    obtain ⟨t', ht', hmerged⟩ := normalize_snoc lawful_joining he'
      (hmove.isArray.trans (harrays e he)) ht hr htn.distinct hrn.distinct
    exact ⟨t, t', htn, hrn, ht', hmerged⟩

theorem loses_of_last {s c : String} {p : List String} (hp : Writes (.arr entries) (s :: c :: p))
    (hc : Writes e' [s, c]) (hlost : ¬ Writes (.obj r) (s :: c :: p)) : Loses (.arr entries) := by
  obtain ⟨t, t', ht, hrn, ht', hmerged⟩ := join_last hd he hmove hr
  have he' : Descriptor e' ∧ isArray e' = false := by
    cases hd with
    | array hentries harrays =>
      exact ⟨hmove.descriptor (hentries e he), hmove.isArray.trans (harrays e he)⟩
  refine ⟨_, .last he hmove, t', ht', _, hp, fun h => ?_⟩
  obtain ⟨v, hv, hvc⟩ := (writes_tree hrn.distinct).1 (join_heads_entry he'.1 he'.2 hr hc)
  obtain ⟨w, hw, hwp⟩ := (writes_tree hmerged.distinct).1 h
  rw [lookup_merged_of_some hmerged hv] at hw
  cases hw
  refine not_writes_mergeJoinValue (fun u hu => ht.value hu) (hrn.value hv)
    (hvc.resolve_left (by simp)) (fun hvp => hlost ?_) (hwp.resolve_left (by simp))
  exact (writes_tree hrn.distinct).2 ⟨v, hv, .inr hvp⟩

theorem loses_of_bare_last {s c : String} (hp : Writes (.arr entries) [s, c]) (hbare : Bare e' [s]) :
    Loses (.arr entries) := by
  obtain ⟨t, t', ht, hrn, ht', hmerged⟩ := join_last hd he hmove hr
  have he' : Descriptor e' ∧ isArray e' = false := by
    cases hd with
    | array hentries harrays =>
      exact ⟨hmove.descriptor (hentries e he), hmove.isArray.trans (harrays e he)⟩
  refine ⟨_, .last he hmove, t', ht', _, hp, fun h => ?_⟩
  obtain ⟨b, hb⟩ := flag_of_bare lawful_joining he'.1 he'.2 hr hbare
  obtain ⟨w, hw, hwp⟩ := (writes_tree hmerged.distinct).1 h
  rw [lookup_merged_of_some hmerged hb] at hw
  cases hw
  exact not_writes_flag isFlag_of_incoming (hwp.resolve_left (by simp))

end Losing

theorem joinConsistent_of_not_loses {d : Json} (hd : Descriptor d) (h : ¬ Loses d) :
    JoinConsistent d := by
  induction hd with
  | name => exact .name
  | @array entries hentries harrays ih =>
    have harr : Descriptor (.arr entries) := .array hentries harrays
    refine .array (fun e he => ih e he fun hloses => h ?_) fun e he e' he' s c hc => ?_
    · obtain ⟨e', hmove, r, hr, p, hp, hlost⟩ := hloses
      have he' := hmove.descriptor (hentries e he)
      have hp' := (hmove.writes p).2 hp
      rcases p with - | ⟨s, - | ⟨c, p⟩⟩
      · exact absurd rfl hp.ne_nil
      · exact absurd ((join_heads he' hr).2 s hp') hlost
      · exact loses_of_last harr he hmove hr (.entry he hp)
          (Writes.upTo (p := [s, c]) hp' (by simp)) hlost
    · obtain ⟨r, hr, -⟩ := normalize_ok lawful_joining (hentries e he)
      refine ⟨fun hbare => h ?_, fun hc' p hp => ?_⟩
      · exact loses_of_bare_last harr he .refl hr (.entry he' hc) hbare
      · by_contra hnot
        refine h (loses_of_last harr he .refl hr (.entry he' hp) hc' fun hlost => hnot ?_)
        exact (join_heads (hentries e he) hr).1 _ hlost
  | @object fields hdistinct hfields ih =>
    refine .object fun s d hmem hflag => ih s d hmem hflag fun hloses => h ?_
    obtain ⟨d', hmove, tree, htree, p, hp, hlost⟩ := hloses
    obtain ⟨before, after, rfl⟩ := append_of_mem hmem
    have hobj : Rearrangement (.obj (before ++ (s, d) :: after))
        (.obj (before ++ (s, d') :: after)) := .field hmove
    have hdesc := hobj.descriptor (.object hdistinct hfields)
    obtain ⟨t, ht, htn, hft⟩ := normalize_object_ok lawful_joining hdesc
    refine ⟨_, hobj, t, ht, s :: p, .nested (by simp) hp, fun hwrites => ?_⟩
    have hdistinct' : Distinct (before ++ (s, d') :: after) := by simpa [Distinct] using hdistinct.1
    obtain ⟨v, hv, hfield⟩ := lookup_of_fieldOf hft hdistinct' (s := s) (d := d') (by simp)
    obtain ⟨w, hw, hwp⟩ := (writes_tree htn.distinct).1 hwrites
    cases hv.symm.trans hw
    cases hfield with
    | flag =>
      have := hmove.isFlag
      rw [hflag] at this
      cases this
    | tree _ _ htree' =>
      cases htree.symm.trans htree'
      exact hlost (hwp.resolve_left hp.ne_nil)

end Velocious.RelationshipTrees
