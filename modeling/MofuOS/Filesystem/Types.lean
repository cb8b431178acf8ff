import MofuOS.Usize
import Mathlib.Data.UInt

/-! The vocabulary of filesystem/sirius.rs that every layer of the file system shares. -/
namespace MofuOS.Filesystem
open Lib

abbrev FileNodeHandle := Nat
def invalidNodeHandle : FileNodeHandle := 0

inductive FileType where
  | file
  | directory
  deriving DecidableEq, Repr

inductive FileSystemError where
  | notFound
  | permissionDenied
  | fileExists
  | isDirectory
  | notDirectory
  | diskOpError
  | invalidPath
  | fileSizeExceeded
  | invalidFilename
  | directoryNotEmpty
  | noSpace
  | directoryFull
  | ioError
  | fileNotFound
  | cacheFull
  | notSupported
  deriving DecidableEq, Repr

/-- The READ, WRITE and EXECUTE bits. -/
structure FileAttributes where
  bits : UInt8
  deriving DecidableEq, Repr

namespace FileAttributes
def fileReadonly : FileAttributes := ⟨1⟩
def fileReadWrite : FileAttributes := ⟨3⟩
def dirDefault : FileAttributes := ⟨1⟩
end FileAttributes

/-- Names are the bytes of the source's strings, which it does not check to be UTF-8. -/
structure FileNode where
  nodeId : FileNodeHandle
  name : List UInt8
  fileType : FileType
  size : Nat
  createdTime : UInt32
  modifiedTime : UInt32
  attributes : FileAttributes
  deriving DecidableEq, Repr

/-- The error and state discipline of the drivers. -/
abbrev FsProg (σ α : Type) := Prog σ FileSystemError α

/-- The bytes of a Rust slice, which holds at most isize::MAX of them. -/
abbrev ByteSlice := { l : List UInt8 // l.length < 2^63 }

/-- A Rust slice index a..b into a buffer of length n: it panics unless a ≤ b ≤ n. -/
def checkRange (a b n : Nat) : Outcome Unit := if a ≤ b ∧ b ≤ n then .ok () else .error .panic

theorem checkRange_eq_ok {a b n : Nat} {u : Unit} (h : checkRange a b n = .ok u) : a ≤ b ∧ b ≤ n := by
  unfold checkRange at h
  split at h
  · assumption
  · cases h

end MofuOS.Filesystem
