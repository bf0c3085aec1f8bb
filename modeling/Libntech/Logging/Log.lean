import Libntech.Json.Element
import Mathlib.Algebra.Group.Int.Defs

/-! # Logging (`libutils/logging.c`)

The globals, the context of each thread, and what goes to the hooks, to the console and to the system log. Messages come
formatted, and hooks do not log. An assertion or a `ProgrammingError` ends the process. Without `systemd`, the system log gets
the text alone.
-/
namespace Libntech.Logging
set_option autoImplicit false

open Libntech.Json (Bytes ascii)

/-! ## Levels -/

inductive LogLevel where
  | nothing
  | none
  | crit
  | err
  | warning
  | notice
  | info
  | verbose
  | debug
  deriving DecidableEq

def LogLevel.toInt : LogLevel → ℤ
  | .nothing => -1
  | .none => 0
  | .crit => 1
  | .err => 2
  | .warning => 3
  | .notice => 4
  | .info => 5
  | .verbose => 6
  | .debug => 7

instance : LE LogLevel := ⟨fun a b => a.toInt ≤ b.toInt⟩

instance : LT LogLevel := ⟨fun a b => a.toInt < b.toInt⟩

instance (a b : LogLevel) : Decidable (a ≤ b) := inferInstanceAs (Decidable (a.toInt ≤ b.toInt))

instance (a b : LogLevel) : Decidable (a < b) := inferInstanceAs (Decidable (a.toInt < b.toInt))

def logLevelToString : LogLevel → Option Bytes
  | .crit => some (ascii "CRITICAL")
  | .err => some (ascii "error")
  | .warning => some (ascii "warning")
  | .notice => some (ascii "notice")
  | .info => some (ascii "info")
  | .verbose => some (ascii "verbose")
  | .debug => some (ascii "debug")
  | .nothing | .none => Option.none

def escape (code : String) : Bytes := 27 :: ascii code

def logLevelToColor : LogLevel → Option Bytes
  | .crit | .err => some (escape "[31m")
  | .warning => some (escape "[33m")
  | .notice | .info => some (escape "[32m")
  | .verbose | .debug => some (escape "[34m")
  | .nothing | .none => Option.none

/-- `LOG_CRIT` and the others of `syslog` -/
def logLevelToSyslogPriority : LogLevel → Option ℕ
  | .crit => some 2
  | .err => some 3
  | .warning => some 4
  | .notice => some 5
  | .info => some 6
  | .verbose | .debug => some 7
  | .nothing | .none => Option.none

/-! ## State -/

section State

variable (σ : Type)

/-- A hook gives the message that is printed, and writes to what its `param` leads to, which hooks may share. -/
structure LoggingPrivContext where
  log_hook : Option (σ → LogLevel → Bytes → Bytes × σ)
  force_hook_level : LogLevel

structure LoggingContext where
  log_level : LogLevel
  report_level : LogLevel
  color : Bool
  pctx : Option (LoggingPrivContext σ)

structure LogEntry where
  level : LogLevel
  msg : Bytes
  deriving DecidableEq

abbrev Thread := ℕ

/-- The time is given as it is printed. -/
structure Globals where
  vPrefix : Bytes
  agentType : Bytes
  timestamps : Bool
  now : Bytes
  param : σ
  global_level : LogLevel
  global_system_log_level : LogLevel
  contexts : Thread → Option (LoggingContext σ)
  log_buffer : Option (List LogEntry)
  logging_into_buffer : Bool
  min_log_into_buffer_level : LogLevel
  max_log_into_buffer_level : LogLevel

end State

variable {σ : Type}

/-- What is seen from outside. -/
inductive Event where
  | hook (level : LogLevel) (msg : Bytes)
  | console (text : Bytes)
  | syslog (priority : ℕ) (text : Bytes)
  deriving DecidableEq

def Globals.setContext (g : Globals σ) (t : Thread) (lctx : Option (LoggingContext σ)) : Globals σ :=
  { g with contexts := fun t' => if t' = t then lctx else g.contexts t' }

def Globals.newContext (g : Globals σ) : LoggingContext σ :=
  ⟨if g.global_system_log_level = .nothing then g.global_level else g.global_system_log_level, g.global_level, false,
    Option.none⟩

/-- A thread gets its context when it is first asked for. -/
def getCurrentThreadContext (g : Globals σ) (t : Thread) : LoggingContext σ × Globals σ :=
  match g.contexts t with
  | some lctx => (lctx, g)
  | Option.none => (g.newContext, g.setContext t (some g.newContext))

/-! ## Messages -/

def LoggingContext.toConsole (lctx : LoggingContext σ) (level : LogLevel) : Bool := level ≤ lctx.report_level

def LoggingContext.toSyslog (lctx : LoggingContext σ) (level : LogLevel) : Bool :=
  level ≤ lctx.log_level ∧ level < .verbose

def LoggingContext.hook (lctx : LoggingContext σ) : Option (σ → LogLevel → Bytes → Bytes × σ) :=
  lctx.pctx.bind (·.log_hook)

def LoggingContext.forceHook (lctx : LoggingContext σ) (level : LogLevel) : Bool :=
  match lctx.pctx with
  | some pctx => pctx.log_hook.isSome ∧ level ≤ pctx.force_hook_level
  | Option.none => false

/-- The condition of `WouldLog`, and of the early return in `VLogNoFormat`. -/
def LoggingContext.wouldLog (lctx : LoggingContext σ) (level : LogLevel) : Bool :=
  lctx.toConsole level || lctx.toSyslog level || lctx.forceHook level

/-- `%8s` -/
def padded (text : Bytes) : Bytes := List.replicate (8 - text.length) ' '.toUInt8 ++ text

def logToConsole (g : Globals σ) (msg : Bytes) (level : LogLevel) (color : Bool) : Option Event := do
  let on ← if color then logLevelToColor level else some []
  let vPrefix := if .info ≤ level ∧ g.vPrefix ≠ [] then g.vPrefix ++ ascii " " else []
  let timestamp := if g.timestamps then g.now ++ ascii " " else []
  let name ← logLevelToString level
  let off := if color then escape "[0m" else []
  return .console (on ++ vPrefix ++ timestamp ++ padded name ++ ascii ": " ++ msg ++ ascii "\n" ++ off)

def logToSystemLog (g : Globals σ) (msg : Bytes) (level : LogLevel) : Option Event := do
  let logmsg := ascii "CFEngine(" ++ g.agentType ++ ascii ") " ++ g.vPrefix ++ ascii " " ++ msg ++ ascii "\n"
  let priority ← logLevelToSyslogPriority level
  return .syslog priority (logmsg.take 4095)

/-- "Remove ending EOLN." -/
def removeEoln (msg : Bytes) : Bytes := if msg.getLast? = some '\n'.toUInt8 then msg.dropLast else msg

/-- What is behind the buffering in `VLogNoFormat`. -/
def emit (g : Globals σ) (lctx : LoggingContext σ) (level : LogLevel) (msg : Bytes) : Option (σ × List Event) := do
  let msg := removeEoln msg
  let (hooked_msg, param) := match lctx.hook with
    | some log_hook => log_hook g.param level msg
    | Option.none => (msg, g.param)
  let hooked := if lctx.hook.isSome then [Event.hook level msg] else []
  let console ← if lctx.toConsole level then (logToConsole g hooked_msg level lctx.color).map fun e => [e] else some []
  let syslog ← if lctx.toSyslog level then (logToSystemLog g hooked_msg level).map fun e => [e] else some []
  return (param, hooked ++ console ++ syslog)

/-- The level is one of those that go to the buffer. -/
def Globals.buffers (g : Globals σ) (level : LogLevel) : Bool :=
  g.logging_into_buffer ∧ g.min_log_into_buffer_level ≤ level ∧ level ≤ g.max_log_into_buffer_level

def vLogNoFormat (g : Globals σ) (t : Thread) (level : LogLevel) (msg : Bytes) : Option (Globals σ × List Event) :=
  let (lctx, g) := getCurrentThreadContext g t
  if lctx.wouldLog level = false then some (g, [])
  else if g.buffers level then g.log_buffer.map fun entries => ({ g with log_buffer := some (entries ++ [⟨level, msg⟩]) }, [])
  else (emit g lctx level msg).map fun (param, events) => ({ g with param := param }, events)

def isPrint (c : UInt8) : Bool := 32 ≤ c ∧ c ≤ 126

/-- More than `CF_BUFSIZE` bytes are an assertion. -/
def logRaw (g : Globals σ) (t : Thread) (level : LogLevel) (rawPrefix buf : Bytes) : Option (Globals σ × List Event) :=
  if 4096 < buf.length then Option.none
  else
    let (lctx, g) := getCurrentThreadContext g t
    if level ≤ lctx.report_level ∨ level ≤ lctx.log_level then
      vLogNoFormat g t level (rawPrefix ++ buf.map fun c => if isPrint c then c else '.'.toUInt8)
    else some (g, [])

/-! ## The buffer -/

def discardLogBuffer (g : Globals σ) : Globals σ := { g with log_buffer := Option.none, logging_into_buffer := false }

/-- "Re-initializing log buffer without prior commit" is an assertion. -/
def startLoggingIntoBuffer (g : Globals σ) (min_level max_level : LogLevel) : Option (Globals σ) :=
  if g.log_buffer = Option.none ∧ g.logging_into_buffer = false then
    some { g with log_buffer := some [], logging_into_buffer := true, min_log_into_buffer_level := min_level,
                  max_log_into_buffer_level := max_level }
  else Option.none

def commitLoop (g : Globals σ) (t : Thread) : List LogEntry → Option (Globals σ × List Event)
  | [] => some (g, [])
  | entry :: entries => do
    let (g, events) ← vLogNoFormat g t entry.level entry.msg
    let (g, rest) ← commitLoop g t entries
    return (g, events ++ rest)

def commitLogBuffer (g : Globals σ) (t : Thread) : Option (Globals σ × List Event) :=
  match g.log_buffer with
  | some entries =>
    if g.logging_into_buffer then
      (commitLoop { g with logging_into_buffer := false } t entries).map fun (g, events) => (discardLogBuffer g, events)
    else Option.none
  | Option.none => Option.none

/-! ## Levels and contexts -/

/-- The functions that write to the context of the calling thread. -/
def Globals.modify (g : Globals σ) (t : Thread) (f : LoggingContext σ → LoggingContext σ) : Globals σ :=
  let (lctx, g) := getCurrentThreadContext g t
  g.setContext t (some (f lctx))

def loggingPrivSetContext (g : Globals σ) (t : Thread) (pctx : Option (LoggingPrivContext σ)) : Globals σ :=
  g.modify t fun lctx => { lctx with pctx := pctx }

def loggingPrivSetLevels (g : Globals σ) (t : Thread) (log_level report_level : LogLevel) : Globals σ :=
  g.modify t fun lctx => { lctx with log_level := log_level, report_level := report_level }

def loggingSetColor (g : Globals σ) (t : Thread) (enabled : Bool) : Globals σ :=
  g.modify t fun lctx => { lctx with color := enabled }

def logSetGlobalLevel (g : Globals σ) (t : Thread) (level : LogLevel) : Globals σ :=
  let g := { g with global_level := level }
  if g.global_system_log_level = .nothing then loggingPrivSetLevels g t level level
  else loggingPrivSetLevels g t g.global_system_log_level level

def logSetGlobalSystemLogLevel (g : Globals σ) (t : Thread) (level : LogLevel) : Option (Globals σ) :=
  if level = .nothing then Option.none
  else some (loggingPrivSetLevels { g with global_system_log_level := level } t level g.global_level)

def logUnsetGlobalSystemLogLevel (g : Globals σ) (t : Thread) : Globals σ :=
  loggingPrivSetLevels { g with global_system_log_level := .nothing } t g.global_level g.global_level

/-! ## Runs -/

/-- The calls of the threads, which do not overlap, the assignments to `VPREFIX`, and the time. -/
inductive Op (σ : Type) where
  | log (level : LogLevel) (msg : Bytes)
  | logRaw (level : LogLevel) (rawPrefix buf : Bytes)
  | systemLog (level : LogLevel) (msg : Bytes)
  | start (min_level max_level : LogLevel)
  | discard
  | commit
  | wouldLog
  | freeContext
  | privSetContext (pctx : Option (LoggingPrivContext σ))
  | privSetLevels (log_level report_level : LogLevel)
  | setColor (enabled : Bool)
  | setGlobalLevel (level : LogLevel)
  | setGlobalSystemLogLevel (level : LogLevel)
  | unsetGlobalSystemLogLevel
  | setVPrefix (vPrefix : Bytes)
  | setAgentType (type : Bytes)
  | enableTimestamps (enable : Bool)
  | tick (now : Bytes)

/-- Nothing is seen from outside. -/
def quietly (g : Globals σ) : Option (Globals σ × List Event) := some (g, [])

def step (g : Globals σ) (t : Thread) : Op σ → Option (Globals σ × List Event)
  | .log level msg => vLogNoFormat g t level msg
  | .logRaw level rawPrefix buf => logRaw g t level rawPrefix buf
  | .systemLog level msg => (logToSystemLog g msg level).map fun e => (g, [e])
  | .start min_level max_level => (startLoggingIntoBuffer g min_level max_level).bind quietly
  | .discard => quietly (discardLogBuffer g)
  | .commit => commitLogBuffer g t
  | .wouldLog => quietly (getCurrentThreadContext g t).2
  | .freeContext => quietly (g.setContext t Option.none)
  | .privSetContext pctx => quietly (loggingPrivSetContext g t pctx)
  | .privSetLevels log_level report_level => quietly (loggingPrivSetLevels g t log_level report_level)
  | .setColor enabled => quietly (loggingSetColor g t enabled)
  | .setGlobalLevel level => quietly (logSetGlobalLevel g t level)
  | .setGlobalSystemLogLevel level => (logSetGlobalSystemLogLevel g t level).bind quietly
  | .unsetGlobalSystemLogLevel => quietly (logUnsetGlobalSystemLogLevel g t)
  | .setVPrefix vPrefix => quietly { g with vPrefix := vPrefix }
  | .setAgentType type => quietly { g with agentType := type.take 79 }
  | .enableTimestamps enable => quietly { g with timestamps := enable }
  | .tick now => quietly { g with now := now }

def run (g : Globals σ) : List (Thread × Op σ) → Option (Globals σ × List Event)
  | [] => some (g, [])
  | (t, op) :: ops => do
    let (g, events) ← step g t op
    let (g, rest) ← run g ops
    return (g, events ++ rest)

end Libntech.Logging
