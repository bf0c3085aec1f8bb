import Libntech.Containers.Sequence
import Mathlib.Data.List.Basic

/-! # Reading CSV (`libutils/csv_parser.c`)

The field that is read is collected in one buffer `snatched`, which keeps its bytes from field to field; `sn` points
behind the last byte of the field or is `NULL`. The buffer comes from `malloc`, so what it holds first is a
parameter. A write that is not in the buffer and a string that does not end in it stop the model (`outOfBounds`).
-/
namespace Libntech.Csv
set_option autoImplicit false

open Libntech.Containers

inductive CsvState where
  | newLine
  | preStartSpace
  | noQuoteMode
  | separator
  | leadingQuote
  | internalQuote
  | withQuoteMode
  | spaceAfterQuote
  | error
  | closed
  deriving DecidableEq

inductive CsvParserError where
  | malformed
  | unknownState
  | unexpectedEnd
  deriving DecidableEq

/-- Why a run does not return a list. -/
inductive Halt where
  | failed (e : CsvParserError)
  | outOfBounds
  deriving DecidableEq

def csvclBlank (c : UInt8) : Bool :=
  c == ' '.toUInt8 || c == '\t'.toUInt8 || c == '\n'.toUInt8 || c == '\r'.toUInt8

def csvclQuote (c : UInt8) : Bool := c == '"'.toUInt8

def csvclSep (c : UInt8) : Bool := c == ','.toUInt8

/-- The variables of `LaunchCsvAutomata`. -/
structure Automaton where
  snatched : List UInt8
  sn : Option ℕ
  currentState : CsvState
  newlist : List (List UInt8)
  deriving DecidableEq

/-- `*sn = c` -/
def Automaton.put (m : Automaton) (c : UInt8) : Except Halt Automaton :=
  match m.sn with
  | none => .error .outOfBounds
  | some i => if i < m.snatched.length then .ok { m with snatched := m.snatched.set i c } else .error .outOfBounds

/-- `*sn = c; sn++` -/
def Automaton.snatch (m : Automaton) (c : UInt8) : Except Halt Automaton := do
  let m ← m.put c
  .ok { m with sn := m.sn.map (· + 1) }

/-- `snatched[0] = '\0'` -/
def Automaton.clear (m : Automaton) : Automaton := { m with snatched := m.snatched.set 0 0 }

/-- The string that begins at `snatched`. -/
def cString (snatched : List UInt8) : Except Halt (List UInt8) :=
  if 0 ∈ snatched then .ok (snatched.takeWhile (· ≠ 0)) else .error .outOfBounds

/-- `SeqAppend(*newlist, xstrdup(snatched))` -/
def Automaton.append (m : Automaton) : Except Halt Automaton := do
  let field ← cString m.snatched
  .ok { m with newlist := m.newlist ++ [field] }

/-- `if (sn != NULL) *sn = '\0'` -/
def Automaton.terminate (m : Automaton) : Except Halt Automaton :=
  match m.sn with
  | none => .ok m
  | some _ => m.put 0

/-- One turn of the loop. -/
def step (m : Automaton) (c : UInt8) : Except Halt Automaton :=
  match m.currentState with
  | .error => .error (.failed .malformed)
  | .newLine =>
    if csvclSep c then do
      let m ← m.put 0
      .ok { m with sn := none, newlist := m.newlist ++ [[]], currentState := .separator }
    else if csvclBlank c then do
      let m ← m.snatch c
      .ok { m with currentState := .preStartSpace }
    else if csvclQuote c then
      .ok { m.clear with sn := none, currentState := .leadingQuote }
    else do
      let m ← m.snatch c
      .ok { m with currentState := .noQuoteMode }
  | .preStartSpace =>
    if csvclSep c then do
      let m ← m.put 0
      let m ← m.append
      .ok { m.clear with sn := none, currentState := .separator }
    else if csvclBlank c then do
      let m ← m.snatch c
      .ok { m with currentState := .preStartSpace }
    else if csvclQuote c then
      .ok { m.clear with sn := none, currentState := .leadingQuote }
    else do
      let m ← m.snatch c
      .ok { m with currentState := .noQuoteMode }
  | .noQuoteMode =>
    if csvclSep c then do
      let m ← m.put 0
      let m ← m.append
      .ok { m.clear with sn := none, currentState := .separator }
    else if csvclQuote c then
      .ok { m.clear with sn := none, currentState := .error }
    else do
      let m ← m.snatch c
      .ok { m with currentState := .noQuoteMode }
  | .separator =>
    if csvclSep c then do
      let m ← m.clear.append
      .ok { m with sn := none, currentState := .separator }
    else if csvclBlank c then do
      let m ← { m with sn := some 0 }.snatch c
      .ok { m with currentState := .preStartSpace }
    else if csvclQuote c then
      .ok { m.clear with sn := none, currentState := .leadingQuote }
    else do
      let m ← { m with sn := some 0 }.snatch c
      .ok { m with currentState := .noQuoteMode }
  | .leadingQuote =>
    if csvclQuote c then
      .ok { m with sn := some 0, currentState := .internalQuote }
    else do
      let m ← { m with sn := some 0 }.snatch c
      .ok { m with currentState := .withQuoteMode }
  | .internalQuote =>
    if csvclSep c then do
      let m ← m.put 0
      let m ← m.append
      .ok { m with sn := none, currentState := .separator }
    else if csvclBlank c then
      .ok { m with currentState := .spaceAfterQuote }
    else if csvclQuote c then do
      let m ← m.snatch c
      .ok { m with currentState := .withQuoteMode }
    else
      .ok { m.clear with sn := m.sn.map (· + 1), currentState := .error }
  | .withQuoteMode =>
    if csvclQuote c then
      .ok { m with currentState := .internalQuote }
    else do
      let m ← m.snatch c
      .ok { m with currentState := .withQuoteMode }
  | .spaceAfterQuote =>
    if csvclSep c then do
      let m ← m.append
      .ok { m with sn := none, currentState := .separator }
    else if csvclBlank c then do
      let m ← m.terminate
      .ok { m with sn := none, currentState := .spaceAfterQuote }
    else
      .ok { m.clear with sn := none, currentState := .error }
  | .closed => .error (.failed .unknownState)

/-- The trailing CRLF goes; `strlen` is stored in an `int`. -/
def trimTrailing (snatched : List UInt8) (strlen : ℕ) : List UInt8 :=
  let len := toInt strlen
  if 1 < len ∧ itemAt snatched (len - 2) = some '\r'.toUInt8 ∧ itemAt snatched (len - 1) = some '\n'.toUInt8 then
    snatched.set (len - 2).toNat 0
  else snatched

def Automaton.trim (m : Automaton) : Except Halt Automaton :=
  if m.currentState = .noQuoteMode ∨ m.currentState = .preStartSpace then do
    let text ← cString m.snatched
    .ok { m with snatched := trimTrailing m.snatched text.length }
  else .ok m

/-- What follows the loop. -/
def finish (m : Automaton) : Except Halt (List (List UInt8)) :=
  if m.currentState ≠ .leadingQuote ∧ m.currentState ≠ .withQuoteMode then do
    let m ← m.terminate
    let m ← m.trim
    let m ← m.append
    .ok m.newlist
  else .error (.failed .unexpectedEnd)

def run (m : Automaton) (str : List UInt8) : Except Halt Automaton := str.foldlM step m

/-- `heap` is what `malloc` returns. -/
def launchCsvAutomata (heap : ℕ → UInt8) (str : List UInt8) : Except Halt (List (List UInt8)) := do
  let snatched := ((List.range (str.length + 1)).map heap).set 0 0
  let m ← run { snatched := snatched, sn := some 0, currentState := .newLine, newlist := [] } str
  finish m

/-- What the caller of `SeqParseCsvString` gets. -/
inductive Parsed where
  | list (fields : List (List UInt8))
  | null
  | outOfBounds
  deriving DecidableEq

/-- The loop over the string ends at its first NUL. -/
def seqParseCsvString (heap : ℕ → UInt8) (string : List UInt8) : Parsed :=
  match launchCsvAutomata heap (string.takeWhile (· ≠ 0)) with
  | .ok newlist => .list newlist
  | .error (.failed _) => .null
  | .error .outOfBounds => .outOfBounds

/-! ## Lines -/

/-- The loop of `GetCsvLineNext`: the bytes put in the buffer and what is left in the file. -/
def readLine (prev : UInt8) (inQuotes : Bool) : List UInt8 → List UInt8 × List UInt8
  | [] => ([], [])
  | current :: file =>
    if current = '"'.toUInt8 then
      (current :: (readLine current (!inQuotes) file).1, (readLine current (!inQuotes) file).2)
    else if !inQuotes ∧ current = '\n'.toUInt8 ∧ prev = '\r'.toUInt8 then
      ([current], file)
    else
      (current :: (readLine current inQuotes file).1, (readLine current inQuotes file).2)

def getCsvLineNext (file : List UInt8) : Option (List UInt8) × List UInt8 :=
  let (buffer, file) := readLine 0 false file
  if buffer.length ≤ 0 then (none, file) else (some buffer, file)

theorem readLine_append (prev : UInt8) (inQuotes : Bool) (file : List UInt8) :
    (readLine prev inQuotes file).1 ++ (readLine prev inQuotes file).2 = file := by
  fun_induction readLine prev inQuotes file with
  | case1 => rfl
  | case2 prev inQuotes file ih => rw [List.cons_append, ih]
  | case3 prev inQuotes current file hquote hend => rfl
  | case4 prev inQuotes current file hquote hend ih => rw [List.cons_append, ih]

theorem getCsvLineNext_shorter {file line rest : List UInt8} (h : getCsvLineNext file = (some line, rest)) :
    rest.length < file.length := by
  have happend := congrArg List.length (readLine_append 0 false file)
  rw [List.length_append] at happend
  unfold getCsvLineNext at h
  simp only at h
  split at h
  · cases h
  next hlong =>
    cases h
    omega

/-- `GetCsvLineNext` until it returns `NULL`. -/
def csvLines (file : List UInt8) : List (List UInt8) :=
  match _h : getCsvLineNext file with
  | (none, _) => []
  | (some line, rest) => line :: csvLines rest
termination_by file.length
decreasing_by exact getCsvLineNext_shorter _h

/-- Each line of the file parsed, every call with a heap of its own. -/
def csvRecords (heap : ℕ → ℕ → UInt8) (file : List UInt8) : List Parsed :=
  (csvLines file).mapIdx fun k line => seqParseCsvString (heap k) line

end Libntech.Csv
