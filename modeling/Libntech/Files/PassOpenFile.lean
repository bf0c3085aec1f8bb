import Libntech.Strings.CStrings
import Mathlib.Logic.Function.Basic
import Mathlib.Data.List.Forall2

/-! # Passing open files (`libutils/passopenfile.c`)

Two processes at the ends of a local socket, with the interface of Unix for control messages. A descriptor stands for an
open file, and a message on the way holds that file whatever its sender does with the descriptor.
-/
namespace Libntech.Files.PassOpenFile
set_option autoImplicit false

open Libntech.Json (Bytes CString ascii)
open Libntech.Strings (text text_append_nul)

/-! ## Messages -/

/-- `MAX_MESSAGE_SIZE` -/
def maxMessageSize : ℕ := 1024

/-- `NULL_MSG`, with its end -/
def nullMsg : Bytes := 0 :: ascii "NULL" ++ [0]

/-- What stands for a text or for `NULL`. -/
def putBytes : Option CString → Bytes
  | some text => text.bytes ++ [0]
  | none => nullMsg

/-- The data that is sent; none is the assertion on its size. -/
def putData (text : Option CString) : Option Bytes :=
  if (putBytes text).length ≤ maxMessageSize then some (putBytes text) else none

/-- The zeroed buffer behind `recvmsg`. -/
def receivedBuffer (data : Bytes) : Bytes :=
  data.take maxMessageSize ++ List.replicate (maxMessageSize - data.length) 0

/-- `if (buffer[0] || strcmp(buffer + 1, NULL_MSG + 1))` -/
def holdsText (buffer : Bytes) : Bool := buffer.head? ≠ some 0 || text (buffer.drop 1) ≠ ascii "NULL"

/-- The text that is passed on, by `xstrndup`. -/
def getText (buffer : Bytes) : Option Bytes := if holdsText buffer then some (text buffer) else none

/-! ## Processes -/

inductive Side where
  | left
  | right
  deriving DecidableEq

def Side.peer : Side → Side
  | .left => .right
  | .right => .left

/-- What is sent: the data, and in the control message the open file. -/
structure Message where
  data : Bytes
  file : ℕ

/-- The files that are open in the processes, and the messages on the way to them. -/
structure System where
  fds : Side → ℤ → Option ℕ
  inbox : Side → List Message

/-- What `recvmsg` comes back with: an error, or the data of the next message with no control message, with one of another
type, or with a descriptor. Without a descriptor, as in a process that can open no more files, the kernel closes the file. -/
inductive Receipt where
  | refused
  | bare
  | anotherType
  | rights (descriptor : ℤ)
  deriving DecidableEq

/-- What happens next, with what the kernel does about it. -/
inductive Act where
  | open (side : Side) (descriptor : ℤ) (file : ℕ)
  | close (side : Side) (descriptor : ℤ)
  | put (side : Side) (descriptor : ℤ) (text : Option CString) (accepted : Bool)
  | get (side : Side) (wants_text : Bool) (receipt : Receipt)

/-- What is returned, and for `PassOpenFile_Get` what is written at `text`, if anything is. -/
inductive Answer where
  | nothing
  | put (sent : Bool)
  | got (descriptor : ℤ) (text : Option (Option Bytes))

/-- `sendmsg`. A descriptor that is not open is never accepted. -/
def sendmsg (s : System) (side : Side) (descriptor : ℤ) (data : Bytes) (accepted : Bool) : System × Bool :=
  match s.fds side descriptor, accepted with
  | some file, true =>
    ({ s with inbox := Function.update s.inbox side.peer (s.inbox side.peer ++ [⟨data, file⟩]) }, true)
  | _, _ => (s, false)

/-- `recvmsg`, with the data; none is what no kernel does. A descriptor that it gives is not negative, and was free. -/
def recvmsg (s : System) (side : Side) (receipt : Receipt) : Option (System × Bytes) :=
  match receipt, s.inbox side with
  | .refused, _ => some (s, [])
  -- no more messages will come
  | .bare, [] => some (s, [])
  | _, [] => none
  | .rights descriptor, message :: rest =>
    if 0 ≤ descriptor ∧ s.fds side descriptor = none then
      some ({ fds := Function.update s.fds side (Function.update (s.fds side) descriptor (some message.file))
              inbox := Function.update s.inbox side rest }, message.data)
    else none
  | _, message :: rest => some ({ s with inbox := Function.update s.inbox side rest }, message.data)

/-- `PassOpenFile_Put` -/
def passOpenFilePut (s : System) (side : Side) (descriptor : ℤ) (text : Option CString) (accepted : Bool) :
    Option (System × Answer) := do
  let data ← putData text
  let (s, sent) := sendmsg s side descriptor data accepted
  some (s, .put sent)

/-- `PassOpenFile_Get` -/
def passOpenFileGet (s : System) (side : Side) (wants_text : Bool) (receipt : Receipt) : Option (System × Answer) := do
  let (s, data) ← recvmsg s side receipt
  match receipt with
  | .rights received_descriptor =>
    if received_descriptor < 0 then
      some (s, .got (-1) none)
    else
      let text := getText (receivedBuffer data)
      some (s, .got received_descriptor (if wants_text then some text else none))
  -- "Can't receive descriptor", "Received no message", "Received message does not deliver a descriptor"
  | _ => some (s, .got (-1) none)

def step (s : System) : Act → Option (System × Answer)
  | .open side descriptor file =>
    if s.fds side descriptor = none then
      some ({ s with fds := Function.update s.fds side (Function.update (s.fds side) descriptor (some file)) }, .nothing)
    else none
  | .close side descriptor =>
    some ({ s with fds := Function.update s.fds side (Function.update (s.fds side) descriptor none) }, .nothing)
  | .put side descriptor text accepted => passOpenFilePut s side descriptor text accepted
  | .get side wants_text receipt => passOpenFileGet s side wants_text receipt

/-- What happened, between which states, and what was returned. -/
structure Call where
  before : System
  act : Act
  answer : Answer
  after : System

def run (s : System) : List Act → Option (System × List Call)
  | [] => some (s, [])
  | act :: acts => do
    let (next, answer) ← step s act
    let (last, calls) ← run next acts
    some (last, ⟨s, act, answer, next⟩ :: calls)

/-! ## The text in a message -/

variable {data : Bytes} {receipt : Receipt} {wants_text : Bool}

section Calls

variable (side : Side)

/-- The process took a message off the socket. -/
def Call.takes (call : Call) : Bool :=
  match call.act with
  | .get receiver _ receipt => receiver = side && receipt ≠ .refused && !(call.before.inbox side).isEmpty
  | _ => false

/-- A message on the way. -/
def Carries (message : Message) (put : ℕ × Option Bytes) : Prop :=
  message.file = put.1 ∧ getText (receivedBuffer message.data) = put.2

variable {side} {s s' : System} {answer : Answer} {waiting : List (ℕ × Option Bytes)}

variable {receiver : Side}

end Calls

/-! ## Runs -/

section Runs

variable (side : Side)

variable {side} {s' : System}

end Runs

end Libntech.Files.PassOpenFile
