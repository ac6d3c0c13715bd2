import DynExpr.Proofs.Double.ReadBack
import DynExpr.Report

/-!
# Reading tables of comma-separated values

A reader goes over a table byte by byte. Fields are separated by commas and rows ended by line
breaks, unless these bytes stand in a quoted field, where a double quote is written twice. Of every
field the reader knows its contents and whether it was quoted (`Csv.Field`).

What a byte means depends only on where the reader is (`Csv.State`), and between two fields it
always is at the same place. So it comes through any field as it is written (`Reader.run_text`), and
from there through rows and tables, by induction: `readRows?_tableText` says that all tables are
read back whose fields without quotes have none of the special bytes. The lines of records are rows
of such a table (`line_eq`, `heading_eq`), and no two records have the same row (`ofRow?_row`), so
that records are read back from their table (`readRecords?_contents`).
-/

namespace DynExpr

/-- The status is that of a line with a result or of one without a result. -/
def Record.HasStatus (record : Record) : Prop :=
  record.status = successStatus ∨ record.status = errorStatus

namespace Csv

open Text

/-! ### Fields -/

/-- A field of a row, and whether it stood in quotes. -/
structure Field where
  contents : Text
  quoted : Bool
deriving DecidableEq

/-- A row is a list of fields. -/
abbrev Row := List Field

/-- The bytes that have a meaning outside of quotes: a comma, a double quote, and those of line
breaks. -/
def isSpecial (b : UInt8) : Bool := b == 44 || b == 34 || b == 10 || b == 13

/-- The ends of a line: a line feed, perhaps with a carriage return in front of it. -/
def IsLineBreak (ending : Text) : Prop := ending = [10] ∨ ending = [13, 10]

namespace Field

/-- A field as it is written. -/
def text (field : Field) : Text :=
  if field.quoted then Csv.quoted field.contents else field.contents

/-- The field can be written: it stands in quotes, or has no need of them. -/
def IsProper (field : Field) : Prop :=
  field.quoted = true ∨ ∀ b ∈ field.contents, isSpecial b = false

end Field

/-! ### The reader -/

/-- Where a reader is. -/
inductive State
  /-- In front of a field, or in a field without quotes. -/
  | bare (contents : Text)
  /-- Between the quotes of a field. -/
  | quoted (contents : Text)
  /-- Behind a double quote in a quoted field: it closes the field, or it is the first of two. -/
  | closed (contents : Text)
  /-- Behind a field and a carriage return. -/
  | returned (field : Field)

/-- A reader with the rows that it has read, and the fields of the next row. -/
structure Reader where
  rows : List Row
  fields : Row
  state : State

namespace Reader

/-- The reader at the beginning of a table. -/
def start : Reader := ⟨[], [], .bare []⟩

/-- Goes on behind a field that ends a row. -/
def endRow (reader : Reader) (field : Field) : Reader :=
  ⟨reader.rows ++ [reader.fields ++ [field]], [], .bare []⟩

/-- Goes from a field to a byte behind it, which is a comma or belongs to a line break. -/
def leave (reader : Reader) (field : Field) (b : UInt8) : Option Reader :=
  if b == 44 then some ⟨reader.rows, reader.fields ++ [field], .bare []⟩
  else if b == 10 then some (reader.endRow field)
  else if b == 13 then some { reader with state := .returned field }
  else none

/-- Goes over one byte. Outside of quotes a double quote stands only in front of a field or behind
it, and a carriage return only in front of a line feed. -/
def step (reader : Reader) (b : UInt8) : Option Reader :=
  match reader.state with
  | .bare contents =>
    if !isSpecial b then some { reader with state := .bare (contents ++ [b]) }
    else if b == 34 then
      if contents.isEmpty then some { reader with state := .quoted [] } else none
    else reader.leave ⟨contents, false⟩ b
  | .quoted contents =>
    some { reader with state := if b == 34 then .closed contents else .quoted (contents ++ [b]) }
  | .closed contents =>
    if b == 34 then some { reader with state := .quoted (contents ++ [34]) }
    else reader.leave ⟨contents, true⟩ b
  | .returned field => if b == 10 then some (reader.endRow field) else none

/-- Goes over a text. -/
def run (reader : Reader) (s : Text) : Option Reader := s.foldlM step reader

/-- The rows at the end of a table. The line break of the last one may be missing, but no closing
quote and no line feed. -/
def finish (reader : Reader) : Option (List Row) :=
  match reader.state with
  | .bare contents =>
    if reader.fields.isEmpty && contents.isEmpty then some reader.rows
    else some (reader.endRow ⟨contents, false⟩).rows
  | .closed contents => some (reader.endRow ⟨contents, true⟩).rows
  | .quoted _ | .returned _ => none

end Reader

/-- The rows of a table. -/
def readRows? (s : Text) : Option (List Row) := (Reader.start.run s).bind Reader.finish

/-! ### Over a field -/

/-- Where a reader is behind a field. -/
def State.behind (field : Field) : State :=
  if field.quoted then .closed field.contents else .bare field.contents

namespace Reader

variable {field : Field} {s ending : Text} {reader next : Reader}

/-- Two texts are read one after the other. -/
theorem run_append (h : reader.run s = some next) (t : Text) :
    reader.run (s ++ t) = next.run t := by
  unfold run at h ⊢
  rw [List.foldlM_append, h]
  rfl

/-- A text of one byte is read in one step. -/
theorem run_singleton (reader : Reader) (b : UInt8) : reader.run [b] = reader.step b := by
  unfold run
  rw [List.foldlM_cons]
  cases reader.step b with
  | none => rfl
  | some next => rfl

/-- Between quotes the reader comes through all bytes, and takes two quotes for one. -/
theorem run_doubled (rows : List Row) (fields : Row) (contents s : Text) :
    run ⟨rows, fields, .quoted contents⟩
        (s.flatMap (fun b => if b == 34 then [34, 34] else [b])) =
      some ⟨rows, fields, .quoted (contents ++ s)⟩ := by
  induction s generalizing contents with
  | nil =>
    rw [List.append_nil]
    rfl
  | cons b s ih =>
    -- one byte or two are gone over, and the rest from there
    have hfirst : run ⟨rows, fields, .quoted contents⟩ (if b == 34 then [34, 34] else [b]) =
        some ⟨rows, fields, .quoted (contents ++ [b])⟩ := by
      by_cases hb : b = 34
      · -- a doubled quote closes the field and opens it again, with one quote more
        rw [hb]
        rfl
      · have hquote : (b == 34) = false := beq_false_of_ne hb
        rw [hquote, if_neg Bool.false_ne_true, run_singleton]
        unfold step
        simp only [hquote, Bool.false_eq_true, if_false]
    rw [List.flatMap_cons, run_append hfirst, ih, List.append_assoc, List.singleton_append]

/-- Outside of quotes the reader comes through all bytes that are not special. -/
theorem run_plain (rows : List Row) (fields : Row) (contents : Text)
    (h : ∀ b ∈ s, isSpecial b = false) :
    run ⟨rows, fields, .bare contents⟩ s = some ⟨rows, fields, .bare (contents ++ s)⟩ := by
  induction s generalizing contents with
  | nil =>
    rw [List.append_nil]
    rfl
  | cons b s ih =>
    obtain ⟨hb, hs⟩ := List.forall_mem_cons.mp h
    -- one byte is put behind the contents
    have hfirst : run ⟨rows, fields, .bare contents⟩ [b] =
        some ⟨rows, fields, .bare (contents ++ [b])⟩ := by
      rw [run_singleton]
      unfold step
      simp only [hb, Bool.not_false, if_true]
    have happend := run_append hfirst s
    rwa [ih _ hs, List.append_assoc] at happend

/-- **A field is read as it is written.** -/
theorem run_text (rows : List Row) (fields : Row) (h : field.IsProper) :
    run ⟨rows, fields, .bare []⟩ field.text = some ⟨rows, fields, .behind field⟩ := by
  obtain ⟨contents, quoted⟩ := field
  cases quoted with
  | true =>
    -- over the opening quote, the contents and the closing quote
    have hopen : run ⟨rows, fields, .bare []⟩ [34] = some ⟨rows, fields, .quoted []⟩ := rfl
    show run ⟨rows, fields, .bare []⟩ ([34] ++ (_ ++ [34])) = _
    rw [run_append hopen, run_append (run_doubled rows fields [] contents), List.nil_append]
    rfl
  | false =>
    have hplain : ∀ b ∈ contents, isSpecial b = false := by
      rcases h with hquoted | hplain
      · cases hquoted
      · exact hplain
    exact run_plain rows fields [] hplain

/-- Behind a field the reader goes on, whether the field was quoted or not. -/
theorem step_behind (rows : List Row) (fields : Row) (field : Field) {b : UInt8}
    (hb : b = 44 ∨ b = 10 ∨ b = 13) :
    step ⟨rows, fields, .behind field⟩ b = leave ⟨rows, fields, .behind field⟩ field b := by
  obtain ⟨contents, quoted⟩ := field
  rcases hb with rfl | rfl | rfl
  -- in both states these bytes are left to `leave`
  all_goals
    cases quoted with
    | true => rfl
    | false => rfl

/-! ### Over rows -/

/-- A line break behind a field ends its row. -/
theorem run_lineBreak (rows : List Row) (fields : Row) (field : Field) (h : IsLineBreak ending) :
    run ⟨rows, fields, .behind field⟩ ending =
      some ⟨rows ++ [fields ++ [field]], [], .bare []⟩ := by
  rcases h with rfl | rfl
  · rw [run_singleton, step_behind rows fields field (.inr (.inl rfl))]
    rfl
  · have hreturn : run ⟨rows, fields, .behind field⟩ [13] =
        some ⟨rows, fields, .returned field⟩ := by
      rw [run_singleton, step_behind rows fields field (.inr (.inr rfl))]
      rfl
    exact run_append hreturn [10]

end Reader

/-- A row as it is written, with the given end. -/
def rowText (ending : Text) (row : Row) : Text :=
  join (utf8 ",") (row.map Field.text) ++ ending

/-- The row can be written. -/
structure IsProperRow (row : Row) : Prop where
  ne_nil : row ≠ []
  isProper : ∀ field ∈ row, field.IsProper

namespace Reader

variable {row : Row} {ending : Text}

/-- **A row is read as it is written.** -/
theorem run_rowText (hrow : IsProperRow row) (hending : IsLineBreak ending) (rows : List Row)
    (fields : Row) :
    run ⟨rows, fields, .bare []⟩ (rowText ending row) =
      some ⟨rows ++ [fields ++ row], [], .bare []⟩ := by
  obtain ⟨hne, hproper⟩ := hrow
  -- the fields that were read before are kept in front
  induction row generalizing fields with
  | nil => exact absurd rfl hne
  | cons field others ih =>
    obtain ⟨hfield, hothers⟩ := List.forall_mem_cons.mp hproper
    have hread := run_text rows fields hfield
    cases others with
    | nil =>
      show run ⟨rows, fields, .bare []⟩ (field.text ++ ending) = _
      rw [run_append hread]
      exact run_lineBreak rows fields field hending
    | cons other others =>
      -- behind the comma the reader is in front of the other fields
      have hcomma : run ⟨rows, fields, .behind field⟩ (utf8 ",") =
          some ⟨rows, fields ++ [field], .bare []⟩ := by
        show run _ [44] = _
        rw [run_singleton, step_behind rows fields field (.inl rfl)]
        rfl
      have hrest := ih (fields ++ [field]) (List.cons_ne_nil other others) hothers
      show run ⟨rows, fields, .bare []⟩
        (field.text ++ utf8 "," ++ join (utf8 ",") ((other :: others).map Field.text) ++ ending) = _
      rw [List.append_assoc, List.append_assoc, run_append hread, run_append hcomma]
      rw [List.append_assoc] at hrest
      exact hrest

/-- The rows of a table are read one after the other. -/
theorem run_tableText {table : List Row} (htable : ∀ row ∈ table, IsProperRow row)
    (hending : IsLineBreak ending) (rows : List Row) :
    run ⟨rows, [], .bare []⟩ (table.flatMap (rowText ending)) =
      some ⟨rows ++ table, [], .bare []⟩ := by
  induction table generalizing rows with
  | nil =>
    rw [List.append_nil]
    rfl
  | cons row table ih =>
    obtain ⟨hrow, hrows⟩ := List.forall_mem_cons.mp htable
    rw [List.flatMap_cons, run_append (run_rowText hrow hending rows []), ih hrows,
      List.append_assoc]
    rfl

end Reader

/-- **A table is read as it is written**, whichever of the line breaks its rows have. -/
theorem readRows?_tableText {table : List Row} {ending : Text}
    (htable : ∀ row ∈ table, IsProperRow row) (hending : IsLineBreak ending) :
    readRows? (table.flatMap (rowText ending)) = some table := by
  rw [readRows?, Reader.start, Reader.run_tableText htable hending []]
  rfl

example : readRows? (utf8 "a,\"\"\"b\n\",\"\"\r\n,c") =
    some [[⟨utf8 "a", false⟩, ⟨utf8 "\"b\n", true⟩, ⟨[], true⟩],
      [⟨[], false⟩, ⟨utf8 "c", false⟩]] := by
  decide +kernel

/-! ### Records -/

/-- The row of a record. -/
def row (record : Record) : Row :=
  [⟨decimalText record.line, false⟩, ⟨record.expression, true⟩, ⟨record.status, false⟩,
    ⟨record.value.getD [], record.value.isSome⟩, ⟨record.message, true⟩]

/-- The row of the heading. -/
def headingRow : Row :=
  ["line", "expression", "status", "result", "message"].map fun name => ⟨utf8 name, false⟩

/-- The result in its field: a quoted field is a result, and an empty one without quotes is none. -/
def valueOfField? (field : Field) : Option (Option Text) :=
  if field.quoted then some (some field.contents)
  else if field.contents.isEmpty then some none
  else none

/-- The record in its row. The number and the status are not quoted, the texts are. -/
def ofRow? : Row → Option Record
  | [⟨digits, false⟩, ⟨expression, true⟩, ⟨status, false⟩, result, ⟨message, true⟩] =>
    if digits.isEmpty || !digits.all isDigit then none
    else (valueOfField? result).map fun value =>
      ⟨digitsValue 10 digits, expression, value, status, message⟩
  | _ => none

/-- The records of a table with the heading. -/
def readRecords? (s : Text) : Option (List Record) :=
  match readRows? s with
  | some (heading :: rows) => if heading = headingRow then rows.mapM ofRow? else none
  | _ => none

/-- No digit is special. -/
theorem isSpecial_of_isDigit {b : UInt8} (h : isDigit b = true) : isSpecial b = false := by
  have hbytes := forall_byte (p := fun b => !isDigit b || !isSpecial b) (by decide +kernel) b
  simpa [h] using hbytes

/-- No byte of a status is special. -/
theorem isSpecial_of_mem_status {record : Record} (h : record.HasStatus) :
    ∀ b ∈ record.status, isSpecial b = false := by
  rcases h with hsuccess | herror
  · rw [hsuccess]
    decide +kernel
  · rw [herror]
    decide +kernel

/-- The row of a record can be written, whatever its texts are. -/
theorem isProperRow_row {record : Record} (h : record.HasStatus) : IsProperRow (row record) := by
  refine ⟨List.cons_ne_nil _ _, ?_⟩
  -- the number and the status have no need of quotes, and the texts have them
  have hdigits : ∀ b ∈ decimalText record.line, isSpecial b = false := fun b hb =>
    isSpecial_of_isDigit (allDigits_decimalText record.line b hb)
  have hvalue : Field.IsProper ⟨record.value.getD [], record.value.isSome⟩ := by
    cases record.value with
    | some value => exact .inl rfl
    -- the field of an absent result is empty
    | none => exact .inr (List.forall_mem_nil _)
  simp only [row, List.forall_mem_cons]
  exact ⟨.inr hdigits, .inl rfl, .inr (isSpecial_of_mem_status h), hvalue, .inl rfl,
    List.forall_mem_nil _⟩

/-- The heading can be written without quotes. -/
theorem isProperRow_headingRow : IsProperRow headingRow := by
  refine ⟨List.cons_ne_nil _ _, ?_⟩
  intro field hfield
  obtain ⟨name, hname, rfl⟩ := List.mem_map.mp hfield
  have hnames : ∀ name ∈ ["line", "expression", "status", "result", "message"],
      ∀ b ∈ utf8 name, isSpecial b = false := by decide +kernel
  exact .inr (hnames name hname)

/-- **The line of a record is its row as it is written.** -/
theorem line_eq (record : Record) : line record = rowText (utf8 "\n") (row record) := by
  obtain ⟨number, expression, value, status, message⟩ := record
  cases value with
  | some value => simp [line, rowText, row, join, Field.text]
  | none => simp [line, rowText, row, join, Field.text]

/-- The heading of a table is its row as it is written. -/
theorem heading_eq : heading = rowText (utf8 "\n") headingRow := by decide +kernel

/-- **A record is read from its row.** An absent result is told from an empty one. -/
theorem ofRow?_row (record : Record) : ofRow? (row record) = some record := by
  obtain ⟨number, expression, value, status, message⟩ := record
  have hempty : (decimalText number).isEmpty = false :=
    List.isEmpty_eq_false_iff.mpr (decimalText_ne_nil number)
  have hdigits : (decimalText number).all isDigit = true :=
    List.all_eq_true.mpr (allDigits_decimalText number)
  have hvalue : valueOfField? ⟨value.getD [], value.isSome⟩ = some value := by
    cases value with
    | some value => rfl
    | none => rfl
  simp only [row, ofRow?, hempty, hdigits, hvalue, digitsValue_decimalText, Option.map_some,
    Bool.not_true, Bool.or_self, Bool.false_eq_true, if_false]

/-- A table is the heading and the rows of its records as they are written. -/
theorem contents_eq (records : List Record) :
    contents records = (headingRow :: records.map row).flatMap (rowText (utf8 "\n")) := by
  have hline : line = fun record => rowText (utf8 "\n") (row record) := funext line_eq
  rw [List.flatMap_cons, ← heading_eq, List.flatMap_map, contents, lines, hline]

/-- Records are read from their rows. -/
theorem mapM_ofRow?_row (records : List Record) :
    (records.map row).mapM ofRow? = some records := by
  induction records with
  | nil => rfl
  | cons record records ih =>
    rw [List.map_cons, List.mapM_cons, ofRow?_row, ih]
    rfl

/-- **Records are read back from their table**, if they have a status. -/
theorem readRecords?_contents {records : List Record}
    (h : ∀ record ∈ records, record.HasStatus) :
    readRecords? (contents records) = some records := by
  have htable : ∀ row' ∈ headingRow :: records.map row, IsProperRow row' := by
    refine List.forall_mem_cons.mpr ⟨isProperRow_headingRow, ?_⟩
    intro row' hrow
    obtain ⟨record, hrecord, rfl⟩ := List.mem_map.mp hrow
    exact isProperRow_row (h record hrecord)
  have hrows : readRows? (contents records) = some (headingRow :: records.map row) := by
    rw [contents_eq]
    exact readRows?_tableText htable (.inl rfl)
  unfold readRecords?
  rw [hrows]
  exact (if_pos rfl).trans (mapM_ofRow?_row records)

end Csv
end DynExpr
