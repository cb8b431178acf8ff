import MofuOS.Lib.Buffer
import MofuOS.Usize
import Mathlib.Data.List.Sort
import Mathlib.Data.UInt

/-! Loading of ELF files, as process/elf_loader.rs does it on what the elf crate parses. -/
namespace MofuOS.Process
open Lib

structure LoadSegment where
  vaddr : Nat
  inFileSize : Nat
  inMemorySize : Nat
  flags : UInt32
  data : List UInt8
  deriving DecidableEq, Repr

namespace LoadSegment

def memoryEnd (segment : LoadSegment) : Nat := segment.vaddr + segment.inMemorySize

def fileEnd (segment : LoadSegment) : Nat := segment.vaddr + segment.inFileSize

end LoadSegment

structure ElfLoadInfo where
  entryPoint : Nat
  minVaddr : Nat
  maxVaddr : Nat
  segments : List LoadSegment
  deriving DecidableEq, Repr

inductive ElfLoadError (E : Type) where
  | invalidHeader
  | invalidArch
  | noLoadableSegments
  | readError
  | parseError (e : E)
  deriving DecidableEq, Repr

/-- A program header with its 64-bit fields. -/
structure ProgramHeader where
  pType : UInt32
  pFlags : UInt32
  pOffset : UInt64
  pVaddr : UInt64
  pFilesz : UInt64
  pMemsz : UInt64
  deriving DecidableEq, Repr

/-- What is used of a parsed file. -/
structure ElfBytes where
  eMachine : UInt16
  eEntry : UInt64
  segments : Option (List ProgramHeader)
  deriving DecidableEq, Repr

def emX86_64 : UInt16 := 62
def ptLoad : UInt32 := 1

section Merge

/-- Both lengths are checked, and that the range lies in the slice. -/
def copyFromSlice (data : List UInt8) (start stop : Nat) (src : List UInt8) : Outcome (List UInt8) :=
  if start ≤ stop ∧ stop ≤ data.length ∧ stop - start = src.length then .ok (overwrite data start src) else .error .panic

/-- The data of a segment with those of the next one copied in. -/
def mergeData (p : Profile) (currSeg next : LoadSegment) : Outcome (List UInt8) :=
  if next.inFileSize > 0 then do
    let offsetInCurr ← usizeSub p next.vaddr currSeg.vaddr
    let mergedDataSize ← usizeAdd p offsetInCurr next.data.length
    copyFromSlice (currSeg.data ++ List.replicate (mergedDataSize - currSeg.data.length) 0) offsetInCurr mergedDataSize next.data
  else .ok currSeg.data

/-- The file part then reaches to the end of the one that ends last. -/
def mergeFileSize (p : Profile) (currSeg next : LoadSegment) : Outcome Nat := do
  let fileEnd ← usizeAdd p next.vaddr next.inFileSize
  let currFileEnd ← usizeAdd p currSeg.vaddr currSeg.inFileSize
  if fileEnd > currFileEnd then usizeSub p fileEnd currSeg.vaddr else .ok currSeg.inFileSize

/-- The next segment begins inside the current one or right behind it. -/
def mergeNext (p : Profile) (currSeg next : LoadSegment) (currEnd : Nat) : Outcome LoadSegment := do
  let nextEnd ← usizeAdd p next.vaddr next.inMemorySize
  let inMemorySize ← usizeSub p (max nextEnd currEnd) currSeg.vaddr
  let data ← mergeData p currSeg next
  let inFileSize ← mergeFileSize p currSeg next
  .ok { currSeg with inMemorySize, flags := currSeg.flags ||| next.flags, data, inFileSize }

/-- The loop over the segments behind the current one. -/
def mergeLoop (p : Profile) (currSeg : LoadSegment) : List LoadSegment → Outcome (List LoadSegment)
  | [] => .ok [currSeg]
  | next :: sortedIter => do
    let currEnd ← usizeAdd p currSeg.vaddr currSeg.inMemorySize
    if next.vaddr ≤ currEnd then
      let currSeg ← mergeNext p currSeg next currEnd
      mergeLoop p currSeg sortedIter
    else
      let merged ← mergeLoop p next sortedIter
      .ok (currSeg :: merged)

/-- The sort is stable. -/
def sortByVaddr (segments : List LoadSegment) : List LoadSegment := segments.insertionSort fun a b => a.vaddr ≤ b.vaddr

def mergeSegments (p : Profile) (segments : List LoadSegment) : Outcome (List LoadSegment) :=
  match sortByVaddr segments with
  | [] => .error .panic
  | currSeg :: sortedIter => mergeLoop p currSeg sortedIter

end Merge

section Parse
variable {E : Type}

/-- The bytes of the file that a header names. -/
def segmentData (p : Profile) (segment : ProgramHeader) (elfData : List UInt8) : Outcome (Except (ElfLoadError E) (List UInt8)) :=
  if segment.pFilesz.toNat > 0 then do
    let stop ← usizeAdd p segment.pOffset.toNat segment.pFilesz.toNat
    if stop > elfData.length then .ok (.error .readError)
    else if segment.pOffset.toNat ≤ stop then .ok (.ok (slice elfData segment.pOffset.toNat (stop - segment.pOffset.toNat)))
    else .error .panic
  else .ok (.ok [])

/-- The loop over the headers. -/
def loadHeaders (p : Profile) (elfData : List UInt8) (minVaddr maxVaddr : Nat) (segments : List LoadSegment) :
    List ProgramHeader → Outcome (Except (ElfLoadError E) (Nat × Nat × List LoadSegment))
  | [] => .ok (.ok (minVaddr,maxVaddr,segments))
  | segment :: headers =>
    if segment.pType = ptLoad then do
      let memoryEnd ← usizeAdd p segment.pVaddr.toNat segment.pMemsz.toNat
      match ← segmentData p segment elfData with
      | .error e => .ok (.error e)
      | .ok data =>
        loadHeaders p elfData (min segment.pVaddr.toNat minVaddr) (max memoryEnd maxVaddr)
          (segments ++ [⟨segment.pVaddr.toNat,segment.pFilesz.toNat,segment.pMemsz.toNat,segment.pFlags,data⟩]) headers
    else loadHeaders p elfData minVaddr maxVaddr segments headers

/-- The printed size of the memory range is computed as well. -/
def ElfLoadInfo.fromElfData (p : Profile) (minimalParse : List UInt8 → Except E ElfBytes) (elfData : List UInt8) :
    Outcome (Except (ElfLoadError E) ElfLoadInfo) :=
  match minimalParse elfData with
  | .error e => .ok (.error (.parseError e))
  | .ok elf =>
    if elf.eMachine ≠ emX86_64 then .ok (.error .invalidArch)
    else
      match elf.segments with
      | none => .ok (.error .invalidHeader)
      | some headers => do
        match ← loadHeaders p elfData (2^64 - 1) 0 [] headers with
        | .error e => .ok (.error e)
        | .ok (minVaddr,maxVaddr,segments) =>
          if segments = [] then .ok (.error .noLoadableSegments)
          else do
            let segments ← mergeSegments p segments
            let _ ← usizeSub p maxVaddr minVaddr
            .ok (.ok ⟨elf.eEntry.toNat,minVaddr,maxVaddr,segments⟩)

end Parse
end MofuOS.Process
