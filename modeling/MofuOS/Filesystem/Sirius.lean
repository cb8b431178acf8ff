import MofuOS.Filesystem.Types

/-! The path layer of filesystem/sirius.rs over a driver. -/
namespace MofuOS.Filesystem
open Lib

/-- What the path layer calls of a driver. -/
structure FilesystemDriver (D : Type) where
  findNode : List Char → FsProg D FileNodeHandle
  getNode : FileNodeHandle → FsProg D FileNode
  createFile : FileNodeHandle → List Char → FsProg D FileNodeHandle
  createDirectory : FileNodeHandle → List Char → FsProg D FileNodeHandle

/-- The parts of a path before and behind its last slash. -/
def splitLastSlash : List Char → Option (List Char × List Char)
  | [] => none
  | c :: cs => match splitLastSlash cs with
    | some (parent,name) => some (c :: parent,name)
    | none => if c = '/' then some ([],cs) else none

namespace Sirius
variable {D : Type} (driver : FilesystemDriver D)

def resolvePath (path : List Char) : FsProg D FileNode := do
  let nodeId ← driver.findNode path
  driver.getNode nodeId

/-- The parent of a path and the name in it. -/
def splitPath (path : List Char) : Except FileSystemError (List Char × List Char) :=
  if path.isEmpty || path == ['/'] then .error .invalidPath
  else
    let trimmed := if path.head? = some '/' then path.tail else path
    match splitLastSlash trimmed with
    | some (parent,name) => .ok (if parent.isEmpty then ['/'] else parent,name)
    | none => .ok (['/'],trimmed)

/-- Both creations, make being the driver's own. -/
def createWith (make : FileNodeHandle → List Char → FsProg D FileNodeHandle) (path : List Char) : FsProg D FileNode :=
  match splitPath path with
  | .error e => Prog.fail e
  | .ok (parentPath,name) => do
    let parent ← resolvePath driver parentPath
    if parent.fileType ≠ .directory then Prog.fail .notDirectory
    else do
      let nodeId ← make parent.nodeId name
      driver.getNode nodeId

def createFile (path : List Char) : FsProg D FileNode := createWith driver driver.createFile path
def createDirectory (path : List Char) : FsProg D FileNode := createWith driver driver.createDirectory path

end Sirius

section Slashes
variable {path parent name : List Char}

theorem splitLastSlash_eq_none : splitLastSlash path = none ↔ '/' ∉ path := by
  induction path with
  | nil => exact ⟨fun _ => List.not_mem_nil,fun _ => rfl⟩
  | cons c cs ih =>
    rw [splitLastSlash,List.mem_cons,not_or,← ih]
    cases splitLastSlash cs with
    | some p => simp
    | none => simp [eq_comm]

theorem splitLastSlash_some (h : splitLastSlash path = some (parent,name)) : path = parent ++ '/' :: name ∧ '/' ∉ name := by
  induction path generalizing parent with
  | nil => cases h
  | cons c cs ih =>
    rw [splitLastSlash] at h
    cases hcs : splitLastSlash cs with
    | some p =>
      rw [hcs] at h
      cases h
      obtain ⟨heq,hname⟩ := ih hcs
      exact ⟨congrArg _ heq,hname⟩
    | none =>
      rw [hcs] at h
      dsimp only at h
      split_ifs at h with hc
      cases h
      exact ⟨by rw [hc]; rfl,splitLastSlash_eq_none.mp hcs⟩

end Slashes
end MofuOS.Filesystem
