import VectorDb.Lib.Bytes

namespace VectorDb.Common
open Lib

inductive StatusCode where
  | kOk
  | kInvalidArgument
  | kNotFound
  | kAlreadyExists
  | kStorageIoError
  | kStorageCorruption
deriving DecidableEq, Repr

/-- An error status. The OK status is the `ok` side of `ErrorOr`. -/
structure Status where
  code : StatusCode
  message : Bytes
deriving DecidableEq, Repr

def corruption (message : String) : Status := ⟨.kStorageCorruption, text message⟩

def ioError (message : String) : Status := ⟨.kStorageIoError, text message⟩

abbrev ErrorOr := Except Status

end VectorDb.Common
