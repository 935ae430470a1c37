/-
  The chunks of the rows that are inserted.

  Text is its UTF-16 code units, and `utf8ByteLength` the bytes `TextEncoder` writes for it. `toSql`
  is the insert statement of some rows; `insertMultipleChunks` cuts the rows with a byte count that
  goes on from row to row.

  * `currentBytes_eq`: the byte count is the length of the statement of the chunk.
  * `insertMultipleChunks_eq`: so the chunks are those of `chunkValues` on the statement itself.
-/
import Mathlib.Tactic
import Velocious.Foundation.Cohorts

namespace Velocious.InsertChunks

open Foundation List

/-! ## Text -/

/-- A text in UTF-16. -/
abbrev Text := List UInt16

def isHighSurrogate (u : UInt16) : Bool := 0xD800 ≤ u && u < 0xDC00

def isLowSurrogate (u : UInt16) : Bool := 0xDC00 ≤ u && u < 0xE000

/-- The bytes of a unit on its own; a lone surrogate is written as U+FFFD. -/
def unitBytes (u : UInt16) : ℕ := if u < 0x80 then 1 else if u < 0x800 then 2 else 3

def utf8ByteLength : Text → ℕ
  | [] => 0
  | [u] => unitBytes u
  | u :: v :: text =>
    if isHighSurrogate u && isLowSurrogate v then 4 + utf8ByteLength text
    else unitBytes u + utf8ByteLength (v :: text)

def ascii (literal : String) : Text := literal.toList.map fun c => c.toNat.toUInt16

theorem utf8ByteLength_append {v : UInt16} (hv : isLowSurrogate v = false) (text rest : Text) :
    utf8ByteLength (text ++ v :: rest) = utf8ByteLength text + utf8ByteLength (v :: rest) := by
  induction text using utf8ByteLength.induct with
  | case1 => simp [utf8ByteLength]
  | case2 u => simp [utf8ByteLength, hv]
  | case3 u v text hpair ih =>
    rw [cons_append, cons_append, utf8ByteLength, utf8ByteLength, if_pos hpair, if_pos hpair, ih,
      Nat.add_assoc]
  | case4 u v text hpair ih =>
    rw [cons_append, cons_append, utf8ByteLength, utf8ByteLength, if_neg hpair, if_neg hpair,
      ← cons_append, ih, Nat.add_assoc]

theorem intercalate_concat (separator text last : Text) (texts : List Text) :
    separator.intercalate (text :: texts ++ [last]) =
      separator.intercalate (text :: texts) ++ (separator ++ last) := by
  induction texts generalizing text with
  | nil => simp
  | cons next texts ih => simpa using ih next

/-- What an insert statement is written with: the table, the columns, how a value is formatted, and
    the limits of the driver. -/
structure Insert (ν : Type) where
  quotedTable : Text
  quotedColumns : List Text
  formatValue : ν → Text
  maxRowsPerInsert : ℕ
  maxInsertSqlBytes : ℕ

namespace Insert

variable {ν : Type} (d : Insert ν)

/-- The statement before its values. -/
def intoSql : Text :=
  ascii "INSERT INTO " ++ d.quotedTable ++
    if d.quotedColumns = [] then []
    else ascii " (" ++ intercalate (ascii ", ") d.quotedColumns ++ ascii ")"

/-- `_valuesSql` -/
def valuesSql (row : List ν) : Text :=
  ascii "(" ++ intercalate (ascii ", ") (row.map d.formatValue) ++ ascii ")"

/-- `toSql` -/
def toSql (rows : List (List ν)) : Text :=
  d.intoSql ++ (if rows = [] then [] else ascii " VALUES ") ++
    intercalate (ascii ", ") (rows.map d.valuesSql)

/-! ## Chunks -/

/-- The chunks that are full, and the one that is being filled. -/
structure Filling (ν : Type) where
  chunks : List (List (List ν))
  currentChunk : List (List ν)
  currentBytes : ℕ

def valuesPrefix : Text := d.toSql [] ++ ascii " VALUES "

/-- `rowValuesSqlBytes` -/
def rowBytes (row : List ν) : ℕ :=
  utf8ByteLength ((d.toSql [row]).drop d.valuesPrefix.length)

/-- The full chunk is pushed when the next row does not fit. -/
def makeRoom (f : Filling ν) (row : List ν) : Filling ν :=
  if f.currentChunk ≠ [] ∧ (d.maxRowsPerInsert < f.currentChunk.length + 1 ∨
      d.maxInsertSqlBytes < f.currentBytes + 2 + d.rowBytes row) then
    ⟨f.chunks ++ [f.currentChunk], [], 0⟩
  else f

def pushRow (f : Filling ν) (row : List ν) : Filling ν :=
  ⟨f.chunks, f.currentChunk ++ [row],
    if f.currentChunk = [] then utf8ByteLength d.valuesPrefix + d.rowBytes row
    else f.currentBytes + (2 + d.rowBytes row)⟩

def fill (rows : List (List ν)) (f : Filling ν) : Filling ν :=
  rows.foldl (fun f row => d.pushRow (d.makeRoom f row) row) f

def Filling.finish (f : Filling ν) : List (List (List ν)) :=
  if f.currentChunk = [] then f.chunks else f.chunks ++ [f.currentChunk]

/-- `_insertMultipleChunks` -/
def insertMultipleChunks (rows : List (List ν)) : List (List (List ν)) :=
  (d.fill rows ⟨[], [], 0⟩).finish

/-! ## The byte count -/

theorem rowBytes_eq (row : List ν) : d.rowBytes row = utf8ByteLength (d.valuesSql row) := by
  have hsql : d.toSql [row] = d.valuesPrefix ++ d.valuesSql row := by
    simp [toSql, valuesPrefix, intercalate]
  rw [rowBytes, hsql, drop_left]

theorem bytes_singleton (row : List ν) :
    utf8ByteLength (d.toSql [row]) = utf8ByteLength d.valuesPrefix + d.rowBytes row := by
  have hsql : d.toSql [row] = d.valuesPrefix ++ d.valuesSql row := by
    simp [toSql, valuesPrefix, intercalate]
  rw [hsql, rowBytes_eq]
  exact utf8ByteLength_append (by decide) _ _

theorem bytes_concat {rows : List (List ν)} (hrows : rows ≠ []) (row : List ν) :
    utf8ByteLength (d.toSql (rows ++ [row])) =
      utf8ByteLength (d.toSql rows) + (2 + d.rowBytes row) := by
  have hsql : d.toSql (rows ++ [row]) = d.toSql rows ++ (ascii ", " ++ d.valuesSql row) := by
    obtain ⟨first, rows, rfl⟩ := exists_cons_of_ne_nil hrows
    have hvalues := intercalate_concat (ascii ", ") (d.valuesSql first) (d.valuesSql row)
      (rows.map d.valuesSql)
    simpa [toSql] using hvalues
  have hseparator : utf8ByteLength (ascii ", " ++ d.valuesSql row) =
      utf8ByteLength (ascii ", ") + utf8ByteLength (d.valuesSql row) :=
    utf8ByteLength_append (by decide) _ _
  rw [hsql, rowBytes_eq, ← show utf8ByteLength (ascii ", ") = 2 by decide, ← hseparator]
  exact utf8ByteLength_append (by decide) _ _

def Filling.Counted (f : Filling ν) : Prop :=
  f.currentChunk ≠ [] → f.currentBytes = utf8ByteLength (d.toSql f.currentChunk)

theorem counted_pushRow {f : Filling ν} (hf : f.Counted d) (row : List ν) :
    (d.pushRow f row).Counted d := by
  intro _
  by_cases hempty : f.currentChunk = []
  · simp [pushRow, hempty, bytes_singleton]
  · simp [pushRow, hempty, bytes_concat, hf hempty]

theorem counted_makeRoom {f : Filling ν} (hf : f.Counted d) (row : List ν) :
    (d.makeRoom f row).Counted d := by
  unfold makeRoom
  split
  · exact absurd rfl
  · exact hf

theorem counted_fill {f : Filling ν} (hf : f.Counted d) (rows : List (List ν)) :
    (d.fill rows f).Counted d := by
  induction rows generalizing f with
  | nil => exact hf
  | cons row rows ih => exact ih (d.counted_pushRow (d.counted_makeRoom hf row) row)

/-- Whether the statement of a chunk is within the bytes of the driver. -/
def fits (chunk : List (List ν)) : Bool :=
  decide (utf8ByteLength (d.toSql chunk) ≤ d.maxInsertSqlBytes)

theorem finish_fill {f : Filling ν} (hf : f.Counted d) (rows : List (List ν)) :
    (d.fill rows f).finish = f.chunks ++
      chunksFrom (fun chunk => decide (chunk.length ≤ d.maxRowsPerInsert) && d.fits chunk)
        f.currentChunk rows := by
  induction rows generalizing f with
  | nil =>
    unfold fill Filling.finish
    cases hchunk : f.currentChunk <;> simp [chunksFrom, hchunk]
  | cons row rows ih =>
    have hstep := ih (d.counted_pushRow (d.counted_makeRoom hf row) row)
    rw [show d.fill (row :: rows) f = d.fill rows (d.pushRow (d.makeRoom f row) row) from rfl, hstep]
    cases hchunk : f.currentChunk with
    | nil => simp [makeRoom, pushRow, hchunk, chunksFrom]
    | cons first current =>
      -- the loop adds up what the check would measure
      have hbytes := d.bytes_concat (cons_ne_nil first current) row
      have hcount := hf (by simp [hchunk])
      rw [hchunk] at hcount
      have hfull : (d.maxRowsPerInsert < f.currentChunk.length + 1 ∨
          d.maxInsertSqlBytes < f.currentBytes + 2 + d.rowBytes row) ↔
          ¬ ((decide ((first :: current ++ [row]).length ≤ d.maxRowsPerInsert) &&
            d.fits (first :: current ++ [row])) = true) := by
        simp only [fits, hbytes, hchunk, hcount, length_append, length_cons, length_nil,
          Bool.and_eq_true, decide_eq_true_eq]
        omega
      by_cases hroom : (decide ((first :: current ++ [row]).length ≤ d.maxRowsPerInsert) &&
          d.fits (first :: current ++ [row])) = true <;>
        simp only [makeRoom, hfull, hroom, chunksFrom] <;> simp [pushRow, hchunk]

/-- **The two versions agree**: adding up the rows cuts where measuring the statement does. -/
theorem insertMultipleChunks_eq (rows : List (List ν)) :
    d.insertMultipleChunks rows = chunkValues d.maxRowsPerInsert d.fits rows :=
  d.finish_fill (f := ⟨[], [], 0⟩) (absurd rfl) rows

end Insert

/-- **Rows and values are cut into full chunks**, whose statements are within the limits; and the
    byte count of a chunk of rows is the length of its statement. -/
theorem chunks_within_limits :
    (∀ {α : Type} (buildSql : List α → Text) (maxCount maxBytes : ℕ) (values : List α),
      Cut (fun chunk => decide (chunk.length ≤ maxCount) &&
          decide (utf8ByteLength (buildSql chunk) ≤ maxBytes)) values
        (chunkValues maxCount
          (fun chunk => decide (utf8ByteLength (buildSql chunk) ≤ maxBytes)) values)) ∧
    ∀ {ν : Type} (d : Insert ν) (rows : List (List ν)),
      Cut (fun chunk => decide (chunk.length ≤ d.maxRowsPerInsert) &&
          decide (utf8ByteLength (d.toSql chunk) ≤ d.maxInsertSqlBytes)) rows
        (d.insertMultipleChunks rows) ∧
      ((d.fill rows ⟨[], [], 0⟩).currentChunk ≠ [] →
        (d.fill rows ⟨[], [], 0⟩).currentBytes =
          utf8ByteLength (d.toSql (d.fill rows ⟨[], [], 0⟩).currentChunk)) := by
  refine ⟨fun _ maxCount _ values => cut_chunkValues maxCount _ values, fun d rows => ⟨?_, ?_⟩⟩
  · rw [d.insertMultipleChunks_eq]
    exact cut_chunkValues d.maxRowsPerInsert d.fits rows
  · exact d.counted_fill (absurd rfl) rows

end Velocious.InsertChunks
