import Mathlib.Data.List.Basic

/-! # Writing CSV (`libutils/csv_writer.c`)

A `Writer` is the bytes written to it so far, whether it keeps them in a string or in a file. Strings are their
bytes without the terminating NUL.
-/
namespace Libntech.Csv
set_option autoImplicit false

/-- The bytes of a C string: no NUL before the terminator. -/
structure Field where
  bytes : List UInt8
  nul_free : 0 ∉ bytes

/-! ## Writer (`libutils/writer.c`) -/

def intMax : ℕ := 2147483647

def writerWriteChar (w : List UInt8) (c : UInt8) : List UInt8 := w ++ [c]

/-- `strnlen` bounds what is written. -/
def writerWriteLen (w str : List UInt8) (len : ℕ) : List UInt8 := w ++ str.take len

def writerWrite (w str : List UInt8) : List UInt8 := writerWriteLen w str intMax

def crlf : List UInt8 := ['\r'.toUInt8, '\n'.toUInt8]

/-! ## CsvWriter -/

structure CsvWriter where
  w : List UInt8
  beginningOfLine : Bool
  terminateLastLine : Bool

def csvWriterOpenSpecifyTerminate (w : List UInt8) (terminateLastLine : Bool) : CsvWriter :=
  { w := w, beginningOfLine := true, terminateLastLine := terminateLastLine }

def csvWriterOpen (w : List UInt8) : CsvWriter := csvWriterOpenSpecifyTerminate w true

/-- The bytes of `strpbrk(str, "\",\r\n")`. -/
def special (c : UInt8) : Bool :=
  c == '"'.toUInt8 || c == ','.toUInt8 || c == '\r'.toUInt8 || c == '\n'.toUInt8

def writeCsvEscapedString (w s : List UInt8) : List UInt8 :=
  let body := s.foldl (fun w c =>
    writerWriteChar (if c = '"'.toUInt8 then writerWriteChar w '"'.toUInt8 else w) c) (writerWriteChar w '"'.toUInt8)
  writerWriteChar body '"'.toUInt8

def csvWriterField (csvw : CsvWriter) (str : List UInt8) : CsvWriter :=
  let w := if csvw.beginningOfLine then csvw.w else writerWriteChar csvw.w ','.toUInt8
  { csvw with
    w := if str.any special then writeCsvEscapedString w str else writerWrite w str
    beginningOfLine := false }

def csvWriterNewRecord (csvw : CsvWriter) : CsvWriter :=
  { csvw with w := writerWrite csvw.w crlf, beginningOfLine := true }

def csvWriterClose (csvw : CsvWriter) : List UInt8 :=
  if !csvw.beginningOfLine && csvw.terminateLastLine then writerWrite csvw.w crlf else csvw.w

/-! ## TrimCSVLineCRLF (`libutils/string_lib.c`) -/

/-- The string that is left; the function returns its length. -/
def trimCSVLineCRLF (data : List UInt8) : List UInt8 :=
  let length := data.length
  if length < 2 then data
  else if data[length - 2]? = some '\r'.toUInt8 ∧ data[length - 1]? = some '\n'.toUInt8 then data.take (length - 2)
  else data

/-! ## Records -/

/-- A record with at least one field. -/
structure Record where
  fields : List Field
  nonempty : fields ≠ []

def csvWriterFields (csvw : CsvWriter) (fields : List Field) : CsvWriter :=
  fields.foldl (fun csvw f => csvWriterField csvw f.bytes) csvw

/-- `CsvWriterNewRecord` stands between two records. -/
def csvWriterRecords (csvw : CsvWriter) : List Record → CsvWriter
  | [] => csvw
  | [r] => csvWriterFields csvw r.fields
  | r :: r' :: rs => csvWriterRecords (csvWriterNewRecord (csvWriterFields csvw r.fields)) (r' :: rs)

/-- A file of records. -/
def csvFile (records : List Record) : List UInt8 := csvWriterClose (csvWriterRecords (csvWriterOpen []) records)

/-- A single record, with or without the line end behind it. -/
def csvLine (terminateLastLine : Bool) (r : Record) : List UInt8 :=
  csvWriterClose (csvWriterFields (csvWriterOpenSpecifyTerminate [] terminateLastLine) r.fields)

/-! ## What is written -/

/-- What is between the quotes of an escaped field. -/
def doubled : List UInt8 → List UInt8
  | [] => []
  | c :: s => if c = '"'.toUInt8 then '"'.toUInt8 :: c :: doubled s else c :: doubled s

def fieldText (f : List UInt8) : List UInt8 :=
  if f.any special then '"'.toUInt8 :: (doubled f ++ ['"'.toUInt8]) else f.take intMax

def recordText : List Field → List UInt8
  | [] => []
  | [f] => fieldText f.bytes
  | f :: f' :: fs => fieldText f.bytes ++ ','.toUInt8 :: recordText (f' :: fs)

theorem writeCsvEscapedString_eq (w s : List UInt8) :
    writeCsvEscapedString w s = w ++ '"'.toUInt8 :: (doubled s ++ ['"'.toUInt8]) := by
  have hbody : ∀ (s w : List UInt8), s.foldl (fun w c =>
      writerWriteChar (if c = '"'.toUInt8 then writerWriteChar w '"'.toUInt8 else w) c) w = w ++ doubled s := by
    intro s
    induction s with
    | nil => intro w; simp [doubled]
    | cons c s ih =>
      intro w
      rw [List.foldl_cons, ih, doubled]
      split
      · simp [writerWriteChar]
      · simp [writerWriteChar]
  unfold writeCsvEscapedString
  rw [hbody]
  simp [writerWriteChar]

theorem csvWriterField_eq (csvw : CsvWriter) (str : List UInt8) : csvWriterField csvw str =
    { csvw with
      w := (if csvw.beginningOfLine then csvw.w else csvw.w ++ [','.toUInt8]) ++ fieldText str
      beginningOfLine := false } := by
  by_cases hspecial : str.any special = true
  · simp only [csvWriterField, fieldText, if_pos hspecial, writeCsvEscapedString_eq]
    rfl
  · simp only [csvWriterField, fieldText, if_neg hspecial]
    rfl

theorem writerWrite_crlf (w : List UInt8) : writerWrite w crlf = w ++ crlf := by
  rw [writerWrite, writerWriteLen, List.take_of_length_le]
  show 2 ≤ 2147483647
  omega

theorem csvWriterFields_later (fields : List Field) (hne : fields ≠ []) (csvw : CsvWriter)
    (h : csvw.beginningOfLine = false) : csvWriterFields csvw fields =
      { csvw with w := csvw.w ++ ','.toUInt8 :: recordText fields } := by
  induction fields generalizing csvw with
  | nil => exact absurd rfl hne
  | cons f fs ih =>
    unfold csvWriterFields
    rw [List.foldl_cons, csvWriterField_eq, h]
    cases fs with
    | nil => simp [recordText]
    | cons f' fs =>
      have hrest := ih (List.cons_ne_nil _ _)
        { csvw with w := (csvw.w ++ [','.toUInt8]) ++ fieldText f.bytes, beginningOfLine := false } rfl
      unfold csvWriterFields at hrest
      simp only [Bool.false_eq_true, if_false]
      rw [hrest]
      simp [recordText]

theorem csvWriterFields_first (r : Record) (csvw : CsvWriter) (h : csvw.beginningOfLine = true) :
    csvWriterFields csvw r.fields =
      { csvw with w := csvw.w ++ recordText r.fields, beginningOfLine := false } := by
  obtain ⟨fields, hne⟩ := r
  cases fields with
  | nil => exact absurd rfl hne
  | cons f fs =>
    show csvWriterFields csvw (f :: fs) = _
    unfold csvWriterFields
    rw [List.foldl_cons, csvWriterField_eq, h]
    cases fs with
    | nil => simp [recordText]
    | cons f' fs =>
      have hrest := csvWriterFields_later (f' :: fs) (List.cons_ne_nil _ _)
        { csvw with w := csvw.w ++ fieldText f.bytes, beginningOfLine := false } rfl
      unfold csvWriterFields at hrest
      simp only [if_true]
      rw [hrest]
      simp [recordText]

theorem csvLine_eq (terminateLastLine : Bool) (r : Record) :
    csvLine terminateLastLine r = recordText r.fields ++ (if terminateLastLine then crlf else []) := by
  unfold csvLine csvWriterClose
  rw [csvWriterFields_first r _ rfl]
  cases terminateLastLine with
  | false => simp [csvWriterOpenSpecifyTerminate]
  | true => simp [csvWriterOpenSpecifyTerminate, writerWrite_crlf]

theorem csvWriterRecords_eq (records : List Record) (csvw : CsvWriter) (h : csvw.beginningOfLine = true)
    (hterm : csvw.terminateLastLine = true) : csvWriterClose (csvWriterRecords csvw records) =
      csvw.w ++ records.flatMap fun r => recordText r.fields ++ crlf := by
  induction records generalizing csvw with
  | nil => simp [csvWriterRecords, csvWriterClose, h]
  | cons r rs ih =>
    cases rs with
    | nil =>
      rw [csvWriterRecords, csvWriterFields_first r csvw h]
      simp [csvWriterClose, hterm, writerWrite_crlf]
    | cons r' rs =>
      rw [csvWriterRecords, csvWriterFields_first r csvw h, ih]
      · simp [csvWriterNewRecord, writerWrite_crlf]
      · rfl
      · exact hterm

theorem csvFile_eq (records : List Record) :
    csvFile records = records.flatMap fun r => recordText r.fields ++ crlf :=
  csvWriterRecords_eq records (csvWriterOpen []) rfl rfl

theorem trimCSVLineCRLF_crlf (text : List UInt8) : trimCSVLineCRLF (text ++ crlf) = text := by
  have hlen : (text ++ crlf).length = text.length + 2 := by simp [crlf]
  unfold trimCSVLineCRLF
  have hcr : (text ++ crlf)[text.length + 2 - 2]? = some '\r'.toUInt8 := by simp [crlf]
  have hlf : (text ++ crlf)[text.length + 2 - 1]? = some '\n'.toUInt8 := by
    rw [show text.length + 2 - 1 = text.length + 1 by omega]
    simp [crlf]
  rw [hlen, if_neg (by omega), if_pos ⟨hcr, hlf⟩]
  simp

/-- Both ways of writing a record without the line end give the same text. -/
theorem trimCSVLineCRLF_csvLine (r : Record) : trimCSVLineCRLF (csvLine true r) = csvLine false r := by
  rw [csvLine_eq, csvLine_eq, if_pos rfl, trimCSVLineCRLF_crlf]
  simp

end Libntech.Csv
