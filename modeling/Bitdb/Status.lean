import Bitdb.Base.Program
import Bitdb.Utils.Coding

/-! Statuses (`bitdb/status.h`) and the ways a call can end without one. -/

set_option autoImplicit false

namespace Bitdb

inductive StatusCode where
  | ok
  | notFound
  | corruption
  | invalidArgument
  | notSupported
  | ioError
  | internalError
  | checkError
  deriving DecidableEq, Repr

structure Status where
  code : StatusCode
  state : String
  deriving DecidableEq, Repr

namespace Status

/-- The constructor joins its two messages with a colon, dropping an empty second one. -/
def make (code : StatusCode) (message message2 : String) : Status :=
  ⟨code, if message2.isEmpty then message else message ++ ": " ++ message2⟩

def ok : Status := ⟨.ok, ""⟩

def okWith (message message2 : String) : Status := make .ok message message2
def notFound (message message2 : String) : Status := make .notFound message message2
def corruption (message message2 : String) : Status := make .corruption message message2
def invalidArgument (message message2 : String) : Status :=
  make .invalidArgument message message2
def notSupported (message message2 : String) : Status := make .notSupported message message2
def ioError (message message2 : String) : Status := make .ioError message message2
def checkError (message message2 : String) : Status := make .checkError message message2

def isOk (status : Status) : Bool := status.code = .ok

def isNotFound (status : Status) : Bool := status.code = .notFound

end Status

/-- Bytes shown as text inside a message, one character for each byte. -/
def text (bytes : List Byte) : String :=
  String.ofList (bytes.map fun byte => Char.ofNat byte.toNat)

inductive Fault where
  /-- A null pointer was dereferenced. -/
  | nullPointer
  /-- An `assert` did not hold. -/
  | assertion
  /-- Memory outside an object was read or written. -/
  | outOfBounds
  /-- A standard-library exception left every handler. -/
  | uncaughtException
  deriving DecidableEq, Repr

inductive Stop where
  /-- The function returned a status that is not `Ok`. -/
  | failed (status : Status)
  /-- `exit(-1)` was called. -/
  | exited
  | faulted (fault : Fault)
  /-- A loop took more rounds than its input has bytes. -/
  | looping
  deriving DecidableEq, Repr

/-- Local destructors run when a function returns, with whatever status, and not
when the process ends inside it. -/
def Stop.unwinds : Stop → Bool
  | .failed _ => true
  | .exited => false
  | .faulted _ => false
  | .looping => false

/-- The call returned, with whatever status, and the process goes on. -/
def returned {α : Type} : Except Stop α → Bool
  | .ok _ => true
  | .error stop => stop.unwinds

end Bitdb
