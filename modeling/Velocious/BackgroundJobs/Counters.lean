/-
  The durable concurrency counters of both stores: a row per concurrency key
  with its cap and the number of active jobs.

  `Counted` is their invariant beside any table of jobs: every key a job
  carries is registered, every counter row stores the number of its holders,
  and the counter of a key that is not queue-derived stays within its cap.
  Each pair of writes the stores make has one rule that keeps it.
-/
import Velocious.Foundation.Counter
import Velocious.BackgroundJobs.JobSemantics

namespace Velocious

open Foundation

/-- A non-empty key. -/
abbrev Key := {s : String // s ≠ ""}

/-- A row of a concurrency table. -/
structure ConcurrencyRow where
  concurrencyKey : Key
  maxConcurrency : ℤ
  activeCount : ℤ
  deriving DecidableEq

abbrev ConcurrencyTable := Table ConcurrencyRow ConcurrencyRow.concurrencyKey

def Concurrency.key (concurrency : Concurrency) : Key :=
  ⟨concurrency.concurrencyKey, concurrency.key_ne_empty⟩

/-! ## Writes -/

def capRow (maxConcurrency : ℤ) (row : ConcurrencyRow) : ConcurrencyRow :=
  { row with maxConcurrency := maxConcurrency }

@[simp] theorem capRow_key (maxConcurrency : ℤ) (row : ConcurrencyRow) :
    (capRow maxConcurrency row).concurrencyKey = row.concurrencyKey := rfl

theorem Concurrency.capRow_key (c : Concurrency) (row : ConcurrencyRow) :
    (capRow c.maxConcurrency row).concurrencyKey = row.concurrencyKey := rfl

/-- One more active job where the cap allows it. -/
def reserveRow (row : ConcurrencyRow) : ConcurrencyRow :=
  { row with activeCount := row.activeCount + 1 }

@[simp] theorem reserveRow_key (row : ConcurrencyRow) :
    (reserveRow row).concurrencyKey = row.concurrencyKey := rfl

def releaseRow (row : ConcurrencyRow) : ConcurrencyRow :=
  { row with activeCount := row.activeCount - 1 }

@[simp] theorem releaseRow_key (row : ConcurrencyRow) :
    (releaseRow row).concurrencyKey = row.concurrencyKey := rfl

def released (concurrency : ConcurrencyTable) : Option Key → ConcurrencyTable
  | none => concurrency
  | some key =>
    concurrency.update (fun row => row.concurrencyKey = key && 0 < row.activeCount) releaseRow
      releaseRow_key

/-- A contract registered with the counters: its row is new, agrees, or (for a
    queue-derived key) has its cap replaced. -/
inductive Ensured (concurrency : Concurrency) (t : ConcurrencyTable) : ConcurrencyTable → Prop where
  | new {t'} : t.insert? ⟨concurrency.key, concurrency.maxConcurrency, 0⟩ = some t' →
      Ensured concurrency t t'
  | same {row} : t.find? concurrency.key = some row → Ensured concurrency t t
  | cap {row} : t.find? concurrency.key = some row → concurrency.queueDerived = true →
      Ensured concurrency t (t.modify concurrency.key (capRow concurrency.maxConcurrency)
        (capRow_key _))

/-- A slot taken for a job with this key: nothing to take without a key. -/
inductive Reserved (t : ConcurrencyTable) : Option Key → ConcurrencyTable → Prop where
  | none : Reserved t none t
  | some {key row} : t.find? key = some row → row.activeCount < row.maxConcurrency →
      Reserved t (some key) (t.modify key reserveRow reserveRow_key)

theorem reserve_cases (t : ConcurrencyTable) (key : Key) :
    (t.count (fun row => row.concurrencyKey = key && row.activeCount < row.maxConcurrency) = 1 ∧
      Reserved t (some key) (t.update
        (fun row => row.concurrencyKey = key && row.activeCount < row.maxConcurrency) reserveRow
        reserveRow_key)) ∨
    (t.count (fun row => row.concurrencyKey = key && row.activeCount < row.maxConcurrency) = 0 ∧
      t.update (fun row => row.concurrencyKey = key && row.activeCount < row.maxConcurrency)
        reserveRow reserveRow_key = t) := by
  cases h : t.find? key with
  | none =>
    refine .inr ⟨Table.count_key_none _ h, Table.update_eq_self fun row hrow => ?_⟩
    simp [Table.find?_eq_none.mp h row hrow]
  | some row =>
    rw [Table.count_key (fun row => decide (row.activeCount < row.maxConcurrency)) h,
      Table.update_key_eq (fun row => decide (row.activeCount < row.maxConcurrency)) h]
    by_cases hr : row.activeCount < row.maxConcurrency
    · exact .inl ⟨by simp [hr], by simpa [hr] using Reserved.some h hr⟩
    · exact .inr ⟨by simp [hr], by simp [hr]⟩

theorem find?_update_isSome {t : ConcurrencyTable} {p : ConcurrencyRow → Bool}
    {f : ConcurrencyRow → ConcurrencyRow} (hf : ∀ row, (f row).concurrencyKey = row.concurrencyKey)
    {key : Key} {c : ConcurrencyRow} (h : t.find? key = some c) :
    ∃ c, (t.update p f hf).find? key = some c :=
  ⟨_, by rw [Table.find?_update, h]; rfl⟩

theorem find?_released {t : ConcurrencyTable} {key : Option Key} {key' : Key} {c : ConcurrencyRow}
    (h : t.find? key' = some c) : ∃ c, (released t key).find? key' = some c := by
  cases key with
  | none => exact ⟨c, h⟩
  | some key => exact find?_update_isSome releaseRow_key h

section
variable {c : Concurrency} {t t' : ConcurrencyTable} (h : Ensured c t t')
include h

theorem Ensured.find? :
    ∃ row, t'.find? c.key = some row := by
  cases h with
  | new h => exact ⟨_, by rw [Table.find?_insert? h, if_pos rfl]⟩
  | same h => exact ⟨_, h⟩
  | cap h _ => exact ⟨_, by rw [Table.find?_modify, if_pos rfl, h]; rfl⟩

theorem Ensured.find?_isSome {key : Key} {row : ConcurrencyRow} (hf : t.find? key = some row) :
    ∃ row, t'.find? key = some row := by
  cases h with
  | new h =>
    rw [Table.find?_insert? h]
    split
    · exact ⟨_, rfl⟩
    · exact ⟨row, hf⟩
  | same => exact ⟨row, hf⟩
  | cap => exact find?_update_isSome (capRow_key _) hf

end

theorem find?_reserved {k : Option Key} {t t' : ConcurrencyTable} (h : Reserved t k t')
    {key : Key} {row : ConcurrencyRow} (hf : t.find? key = some row) :
    ∃ row, t'.find? key = some row := by
  cases h with
  | none => exact ⟨row, hf⟩
  | some => exact find?_update_isSome reserveRow_key hf

/-! ## The invariant -/

section
variable {α : Type} {ι : Type} {id : α → ι}

/-- The counters are in step with a table of jobs, given the key a job carries
    and the key it holds a slot of. -/
structure Counted (carried held : α → Option Key) (jobs : Table α id) (t : ConcurrencyTable) :
    Prop where
  registered : ∀ a ∈ jobs, ∀ key, carried a = some key → ∃ c, t.find? key = some c
  balanced : Balanced held ConcurrencyRow.activeCount jobs t
  capped : ∀ c ∈ t, queueDerivedKey c.concurrencyKey = false → c.activeCount ≤ c.maxConcurrency

variable {carried held : α → Option Key} {jobs : Table α id} {t t' : ConcurrencyTable}

theorem counted_empty : Counted carried held (.empty : Table α id) .empty where
  registered _ h := (Table.not_mem_empty h).elim
  balanced _ h := (Table.not_mem_empty h).elim
  capped _ h := (Table.not_mem_empty h).elim

namespace Counted

theorem register (hs : Counted carried held jobs t)
    (hheld : ∀ a ∈ jobs, ∀ key, held a = some key → carried a = some key) {c : Concurrency}
    (h : Ensured c t t') : Counted carried held jobs t' where
  registered a ha key hkey := by
    obtain ⟨r, hr⟩ := hs.registered a ha key hkey
    exact h.find?_isSome hr
  balanced := by
    cases h with
    | new h =>
      -- no job holds the new key: it would have been registered
      refine hs.balanced.register h ?_
      have hnone := (Table.insert?_eq_some.mp h).1
      have h0 : holders held jobs c.key = 0 := by
        refine Table.count_eq_zero.mpr fun a ha => ?_
        by_contra hk
        obtain ⟨r, hr⟩ := hs.registered a ha _ (hheld a ha _ (by simpa using hk))
        rw [hr] at hnone
        cases hnone
      simp [h0]
    | same => exact hs.balanced
    | cap => exact hs.balanced.of_active _ _ (capRow_key _) fun _ => rfl
  capped := by
    cases h with
    | new h =>
      intro r hr hnq
      rcases (Table.mem_insert? h).mp hr with hr | rfl
      · exact hs.capped r hr hnq
      · exact c.max_pos.le
    | same => exact hs.capped
    | cap _ hq =>
      intro r hr hnq
      obtain ⟨r, hmem, rfl⟩ := Table.mem_update.mp hr
      by_cases hk : r.concurrencyKey = c.key
      · rw [← c.derived] at hq
        simp [hk, Concurrency.key, hq] at hnq
      · simp only [hk] at hnq ⊢
        exact hs.capped r hmem hnq

section
variable [DecidableEq ι]

theorem insert (hs : Counted carried held jobs t) {a : α} {jobs' : Table α id}
    (hn : held a = none) (hk : ∀ key, carried a = some key → ∃ c, t.find? key = some c)
    (hj : jobs.insert? a = some jobs') : Counted carried held jobs' t where
  registered b hb key hkey := by
    rcases (Table.mem_insert? hj).mp hb with hb | rfl
    · exact hs.registered b hb key hkey
    · exact hk key hkey
  balanced := hs.balanced.of_held fun k => by
    simp [holders, Table.count_insert? hj, hn]
  capped := hs.capped

variable {f : α → α}

section
variable (hs : Counted carried held jobs t) {i : ι} {a : α} (hf : ∀ a, id (f a) = id a)
  (h : jobs.find? i = some a)
include hs hf h

theorem registered_modify (ht : ∀ key c, t.find? key = some c → ∃ c, t'.find? key = some c)
    (hk : ∀ key, carried (f a) = some key → ∃ c, t.find? key = some c) :
    ∀ b ∈ jobs.modify i f hf, ∀ key, carried b = some key → ∃ c, t'.find? key = some c := by
  intro b hb key hkey
  rcases (Table.mem_modify h).mp hb with rfl | ⟨hb, -⟩
  · obtain ⟨c, hc⟩ := hk key hkey
    exact ht key c hc
  · obtain ⟨c, hc⟩ := hs.registered b hb key hkey
    exact ht key c hc

theorem rewrite (hn : held a = none)
    (hn' : held (f a) = none) (hk : ∀ key, carried (f a) = some key → ∃ c, t.find? key = some c) :
    Counted carried held (jobs.modify i f hf) t where
  registered := hs.registered_modify hf h (fun _ c hc => ⟨c, hc⟩) hk
  balanced := hs.balanced.of_held fun k => by
    simpa [hn, hn'] using holders_modify held f hf h k
  capped := hs.capped

theorem take (hn : held a = none)
    (hn' : held (f a) = carried a) (hk : carried (f a) = carried a)
    (ht : Reserved t (carried a) t') : Counted carried held (jobs.modify i f hf) t' where
  registered := hs.registered_modify hf h (fun _ _ hc => find?_reserved ht hc) fun key hkey =>
    hs.registered a (Table.mem_of_find? h) key (hk ▸ hkey)
  balanced := by
    generalize hc : carried a = k at ht
    cases ht with
    | none =>
      refine hs.balanced.of_held fun k => ?_
      simpa [hn, hn', hc] using holders_modify held f hf h k
    | some =>
      exact hs.balanced.acquire f hf reserveRow reserveRow_key h hn (hn'.trans hc) fun _ => rfl
  capped := by
    generalize carried a = k at ht
    cases ht with
    | none => exact hs.capped
    | some hc hlt =>
      intro r hr hnq
      rcases (Table.mem_modify hc).mp hr with rfl | ⟨hr, -⟩
      · exact hlt
      · exact hs.capped r hr hnq

end

theorem leave (hs : Counted carried held jobs t) {i : ι} {a : α} {f : α → α}
    (hf : ∀ a, id (f a) = id a) (h : jobs.find? i = some a) (hn : held a = carried a)
    (hn' : held (f a) = none) (hk : carried (f a) = carried a) :
    Counted carried held (jobs.modify i f hf) (released t (carried a)) where
  registered := hs.registered_modify hf h (fun _ _ hc => find?_released hc) fun key hkey =>
    hs.registered a (Table.mem_of_find? h) key (hk ▸ hkey)
  balanced := by
    cases hc : carried a with
    | none =>
      refine hs.balanced.of_held fun k => ?_
      simpa [hn, hn', hc] using holders_modify held f hf h k
    | some key =>
      exact hs.balanced.release f hf releaseRow releaseRow_key h (hn.trans hc) hn' fun _ => rfl
  capped := by
    intro r hr hnq
    cases hc : carried a with
    | none => exact hs.capped r (by simpa [hc, released] using hr) hnq
    | some key =>
      rw [hc] at hr
      dsimp only [released] at hr
      obtain ⟨r, hmem, rfl⟩ := Table.mem_update.mp hr
      split at hnq
      · next hp =>
        have hcap := hs.capped r hmem hnq
        rw [if_pos hp]
        simp only [releaseRow]
        omega
      · next hp =>
        rw [if_neg hp]
        exact hs.capped r hmem hnq

end

theorem delete (hs : Counted carried held jobs t) {p : α → Bool}
    (hp : ∀ a ∈ jobs, p a → held a = none) : Counted carried held (jobs.delete p) t where
  registered a ha := hs.registered a (Table.mem_delete.mp ha).1
  balanced := hs.balanced.of_held fun k => by
    unfold holders
    rw [Table.count_delete]
    refine Table.count_congr fun a ha => ?_
    by_cases hpa : p a
    · simp [hp a ha hpa]
    · simp [hpa]
  capped := hs.capped

end Counted

end

end Velocious
