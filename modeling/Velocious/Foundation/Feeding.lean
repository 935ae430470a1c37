/-
  Feeding a reader chunk by chunk.

  A reader takes something off the data in every turn, until nothing is left or it
  is done; `feed` is that loop. If a turn only looks at what it takes (`Lawful`),
  feeding two chunks is feeding both at once (`feed_append`).

  `serve` starts a new reader for what remains behind an item. Its items do not
  depend on where the stream was cut (`serve_append`), and a stream
  that was put together from items is read back as them (`serve_flatMap`).
-/
import Mathlib.Data.List.Basic
import Mathlib.Tactic.Ring

namespace Foundation

open List

universe u v w

namespace Reader

variable {β : Type u} {σ : Type v} {ε : Type w}
variable (turn : σ → List β → Except ε (σ × List β)) (done : σ → Bool)

/-! ## One item -/

/-- At most this many turns; what remains, once it is done. -/
def turns : ℕ → σ → List β → Except ε (σ × Option (List β))
  | 0, s, _ => .ok (s, none)
  | n + 1, s, data =>
    if data.isEmpty then .ok (s, none)
    else
      (turn s data).bind fun next =>
        if done next.1 then .ok (next.1, some next.2) else turns n next.1 next.2

/-- Turns until nothing is left, or it is done. -/
def feed (s : σ) (data : List β) : Except ε (σ × Option (List β)) :=
  turns turn done data.length s data

/-- A turn takes something, and looks at what it takes only. -/
structure Lawful : Prop where
  shorter : ∀ {s a s' rest}, a ≠ [] → turn s a = .ok (s', rest) → rest.length < a.length
  fails : ∀ {s a e} (b : List β), done s = false → a ≠ [] → turn s a = .error e →
    turn s (a ++ b) = .error e
  extend : ∀ {s a s' rest} (b : List β), done s = false → a ≠ [] → turn s a = .ok (s', rest) →
    turn s (a ++ b) = .ok (s', rest ++ b) ∨
      rest = [] ∧ done s' = false ∧ (b ≠ [] → turn s (a ++ b) = turn s' b)

variable {turn done} {s s' : σ} {a b data rest : List β} {e : ε}

@[simp] theorem feed_nil : feed turn done s [] = .ok (s, none) := rfl

section
variable (h : Lawful turn done)
include h

theorem turns_fuel {n m : ℕ} (hn : data.length ≤ n)
    (hm : data.length ≤ m) : turns turn done n s data = turns turn done m s data := by
  induction n generalizing s data m with
  | zero =>
    obtain rfl := eq_nil_of_length_eq_zero (Nat.le_zero.mp hn)
    cases m <;> rfl
  | succ n ih =>
    cases data with
    | nil => cases m <;> rfl
    | cons x data =>
      cases m with
      | zero => exact absurd hm (Nat.not_succ_le_zero _)
      | succ m =>
        rw [length_cons] at hn hm
        simp only [turns, isEmpty_cons, Bool.false_eq_true, if_false]
        cases hturn : turn s (x :: data) with
        | error e => rfl
        | ok next =>
          have hshort := h.shorter (cons_ne_nil x data) hturn
          rw [length_cons] at hshort
          simp only [Except.bind]
          split
          · rfl
          · exact ih (by omega) (by omega)

theorem feed_of_ne_nil (ha : a ≠ []) :
    feed turn done s a = (turn s a).bind fun next =>
      if done next.1 then .ok (next.1, some next.2) else feed turn done next.1 next.2 := by
  obtain ⟨x, data, rfl⟩ := exists_cons_of_ne_nil ha
  simp only [feed, length_cons, turns, isEmpty_cons, Bool.false_eq_true, if_false]
  cases hturn : turn s (x :: data) with
  | error e => rfl
  | ok next =>
    have hshort := h.shorter ha hturn
    rw [length_cons] at hshort
    simp only [Except.bind]
    split
    · rfl
    · exact turns_fuel h (by omega) le_rfl

theorem feed_of_error (ha : a ≠ []) (hturn : turn s a = .error e) :
    feed turn done s a = .error e := by
  rw [feed_of_ne_nil h ha, hturn]
  rfl

theorem feed_of_done (ha : a ≠ []) (hturn : turn s a = .ok (s', rest))
    (hdone : done s' = true) : feed turn done s a = .ok (s', some rest) := by
  rw [feed_of_ne_nil h ha, hturn]
  exact if_pos hdone

theorem feed_of_turn (ha : a ≠ []) (hturn : turn s a = .ok (s', rest))
    (hdone : done s' = false) : feed turn done s a = feed turn done s' rest := by
  rw [feed_of_ne_nil h ha, hturn]
  exact if_neg (by rw [hdone]; exact Bool.false_ne_true)

theorem feed_some (hfeed : feed turn done s a = .ok (s', some rest)) :
    rest.length < a.length ∧ done s' = true := by
  induction hn : a.length using Nat.strong_induction_on generalizing s a with
  | _ n ih =>
    rcases eq_or_ne a [] with rfl | ha
    · cases hfeed
    cases hturn : turn s a with
    | error e => rw [feed_of_error h ha hturn] at hfeed; cases hfeed
    | ok next =>
      obtain ⟨t, left⟩ := next
      have hshort := h.shorter ha hturn
      cases hdone : done t with
      | true =>
        rw [feed_of_done h ha hturn hdone] at hfeed
        cases hfeed
        exact ⟨hn ▸ hshort, hdone⟩
      | false =>
        rw [feed_of_turn h ha hturn hdone] at hfeed
        have hleft := ih left.length (hn ▸ hshort) hfeed rfl
        exact ⟨by omega, hleft.2⟩

theorem feed_none (hs : done s = false)
    (hfeed : feed turn done s a = .ok (s', none)) : done s' = false := by
  induction hn : a.length using Nat.strong_induction_on generalizing s a with
  | _ n ih =>
    rcases eq_or_ne a [] with rfl | ha
    · cases hfeed
      exact hs
    cases hturn : turn s a with
    | error e => rw [feed_of_error h ha hturn] at hfeed; cases hfeed
    | ok next =>
      obtain ⟨t, left⟩ := next
      cases hdone : done t with
      | true => rw [feed_of_done h ha hturn hdone] at hfeed; cases hfeed
      | false =>
        rw [feed_of_turn h ha hturn hdone] at hfeed
        exact ih left.length (hn ▸ h.shorter ha hturn) hdone hfeed rfl

/-- **Two chunks are read like both at once.** -/
theorem feed_append (hs : done s = false) (a b : List β) :
    feed turn done s (a ++ b) = (feed turn done s a).bind fun next =>
      match next.2 with
      | none => feed turn done next.1 b
      | some rest => .ok (next.1, some (rest ++ b)) := by
  induction hn : a.length using Nat.strong_induction_on generalizing s a with
  | _ n ih =>
    rcases eq_or_ne a [] with rfl | ha
    · rfl
    have hab : a ++ b ≠ [] := append_ne_nil_of_left_ne_nil ha b
    cases hturn : turn s a with
    | error e =>
      rw [feed_of_error h ha hturn, feed_of_error h hab (h.fails b hs ha hturn)]
      rfl
    | ok next =>
      obtain ⟨t, left⟩ := next
      rcases h.extend b hs ha hturn with hext | ⟨rfl, hdone, hext⟩
      · cases hdone : done t with
        | true =>
          rw [feed_of_done h ha hturn hdone, feed_of_done h hab hext hdone]
          rfl
        | false =>
          rw [feed_of_turn h ha hturn hdone, feed_of_turn h hab hext hdone]
          exact ih left.length (hn ▸ h.shorter ha hturn) hdone left rfl
      · rw [feed_of_turn h ha hturn hdone]
        rcases eq_or_ne b [] with rfl | hb
        · rw [append_nil, feed_of_turn h ha hturn hdone]
          rfl
        · rw [feed_of_ne_nil h hab, hext hb, ← feed_of_ne_nil h hb]
          rfl

end

/-! ## Item after item -/

variable (turn done) in
/-- At most this many items: those that are done, and the reader of the next one. -/
def serveTurns (fresh : σ) : ℕ → Option σ → List β → Except ε (List σ × Option σ)
  | 0, current, _ => .ok ([], current)
  | n + 1, current, data =>
    if data.isEmpty then .ok ([], current)
    else
      (feed turn done (current.getD fresh) data).bind fun next =>
        match next.2 with
        | none => .ok ([], some next.1)
        | some rest => (serveTurns fresh n none rest).map fun r => (next.1 :: r.1, r.2)

variable (turn done) in
/-- A new reader for what remains behind an item. -/
def serve (fresh : σ) (current : Option σ) (data : List β) : Except ε (List σ × Option σ) :=
  serveTurns turn done fresh data.length current data

variable {fresh : σ} {c c' : Option σ} {items : List σ}

theorem serveTurns_fuel (h : Lawful turn done) {n m : ℕ} (hn : data.length ≤ n)
    (hm : data.length ≤ m) :
    serveTurns turn done fresh n c data = serveTurns turn done fresh m c data := by
  induction n generalizing c data m with
  | zero =>
    obtain rfl := eq_nil_of_length_eq_zero (Nat.le_zero.mp hn)
    cases m <;> rfl
  | succ n ih =>
    cases data with
    | nil => cases m <;> rfl
    | cons x data =>
      cases m with
      | zero => exact absurd hm (Nat.not_succ_le_zero _)
      | succ m =>
        simp only [serveTurns]
        cases hfeed : feed turn done (c.getD fresh) (x :: data) with
        | error e => rfl
        | ok next =>
          obtain ⟨t, remaining⟩ := next
          cases remaining with
          | none => rfl
          | some rest =>
            have hshort := (feed_some h hfeed).1
            simp only [Except.bind]
            rw [ih (c := none) (by omega) (show rest.length ≤ m by omega)]

theorem serve_of_none (ha : a ≠ [])
    (hfeed : feed turn done (c.getD fresh) a = .ok (s, none)) :
    serve turn done fresh c a = .ok ([], some s) := by
  obtain ⟨x, data, rfl⟩ := exists_cons_of_ne_nil ha
  simp only [serve, length_cons, serveTurns, isEmpty_cons, Bool.false_eq_true, if_false,
    hfeed, Except.bind]

theorem serve_of_some (h : Lawful turn done) (ha : a ≠ [])
    (hfeed : feed turn done (c.getD fresh) a = .ok (s, some rest)) :
    serve turn done fresh c a =
      (serve turn done fresh none rest).map fun r => (s :: r.1, r.2) := by
  have hshort := (feed_some h hfeed).1
  obtain ⟨x, data, rfl⟩ := exists_cons_of_ne_nil ha
  rw [length_cons] at hshort
  simp only [serve, length_cons, serveTurns, isEmpty_cons, Bool.false_eq_true, if_false,
    hfeed, Except.bind]
  rw [serveTurns_fuel h (show rest.length ≤ data.length by omega) le_rfl]

theorem serve_of_error (ha : a ≠ [])
    (hfeed : feed turn done (c.getD fresh) a = .error e) :
    serve turn done fresh c a = .error e := by
  obtain ⟨x, data, rfl⟩ := exists_cons_of_ne_nil ha
  simp only [serve, length_cons, serveTurns, isEmpty_cons, Bool.false_eq_true, if_false,
    hfeed, Except.bind]

/-- **The items do not depend on where the stream is cut.** -/
theorem serve_append (h : Lawful turn done) (hfresh : done fresh = false)
    (hcurrent : ∀ s ∈ c, done s = false) (a b : List β) :
    serve turn done fresh c (a ++ b) = (serve turn done fresh c a).bind fun r =>
      (serve turn done fresh r.2 b).map fun r' => (r.1 ++ r'.1, r'.2) := by
  induction hn : a.length using Nat.strong_induction_on generalizing c a with
  | _ n ih =>
    have hnil : ∀ r : Except ε (List σ × Option σ), (r.map fun r' => ([] ++ r'.1, r'.2)) = r := by
      intro r
      cases r <;> rfl
    rcases eq_or_ne a [] with rfl | ha
    · exact (hnil _).symm
    have hab : a ++ b ≠ [] := append_ne_nil_of_left_ne_nil ha b
    have hs : done (c.getD fresh) = false := by
      cases hc : c with
      | none => exact hfresh
      | some s => exact hcurrent s hc
    have happend := feed_append h hs a b
    cases hfeed : feed turn done (c.getD fresh) a with
    | error e =>
      rw [hfeed] at happend
      rw [serve_of_error ha hfeed, serve_of_error hab happend]
      rfl
    | ok next =>
      obtain ⟨t, remaining⟩ := next
      rw [hfeed] at happend
      cases remaining with
      | none =>
        rw [serve_of_none ha hfeed]
        refine Eq.trans ?_ (hnil _).symm
        rcases eq_or_ne b [] with rfl | hb
        · rw [append_nil, serve_of_none ha hfeed]
          rfl
        cases hnext : feed turn done t b with
        | error e => rw [serve_of_error hab (happend.trans hnext), serve_of_error hb hnext]
        | ok next =>
          obtain ⟨u, remaining⟩ := next
          cases remaining with
          | none => rw [serve_of_none hab (happend.trans hnext), serve_of_none hb hnext]
          | some rest => 
            rw [serve_of_some h hab (happend.trans hnext), serve_of_some (c := some t) h hb hnext]
      | some rest =>
        have hrest := ih rest.length (hn ▸ (feed_some h hfeed).1) (c := none)
          (fun s hs => absurd hs (Option.not_mem_none s)) rest rfl
        rw [serve_of_some h ha hfeed, serve_of_some h hab happend, hrest]
        cases serve turn done fresh none rest with
        | error e => rfl
        | ok r =>
          simp only [Except.bind, Except.map]
          cases serve turn done fresh r.2 b <;> rfl

theorem serve_flatMap {ι : Type*} (h : Lawful turn done) {encode : ι → List β}
    {P : ι → σ → Prop} {xs : List ι} (hread : ∀ i ∈ xs, encode i ≠ [] ∧ ∃ s, P i s ∧
      ∀ rest, feed turn done fresh (encode i ++ rest) = .ok (s, some rest)) :
    ∃ items, serve turn done fresh none (xs.flatMap encode) = .ok (items, none) ∧
      List.Forall₂ P xs items := by
  induction xs with
  | nil => exact ⟨[], rfl, .nil⟩
  | cons i xs ih =>
    obtain ⟨hne, s, hs, hfeed⟩ := hread i mem_cons_self
    obtain ⟨items, hserve, hitems⟩ := ih fun j hj => hread j (mem_cons_of_mem i hj)
    have happend := append_ne_nil_of_left_ne_nil hne (xs.flatMap encode)
    refine ⟨s :: items, ?_, .cons hs hitems⟩
    rw [flatMap_cons, serve_of_some (c := none) h happend (hfeed _), hserve]
    rfl

end Reader

end Foundation
