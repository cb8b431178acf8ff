import MofuOS.Lib.Steps
import MofuOS.Rustspace.Scrollback
import MofuOS.Rustspace.LineIndex

/-! The text side of terminal/mod.rs: what is written is split at line ends and wrapped at spaces. What is
only drawn, scrolled or recalled is left out. -/
namespace MofuOS.Rustspace
open Lib

structure Terminal (max : Nat) where
  scrollback : Scrollback
  lines : LineIndex max
  maxCharsPerLine : Nat

namespace Terminal
variable {max : Nat} [NeZero max]

def new (maxCharsPerLine : Nat) (scrollback : Scrollback) : Terminal max :=
  ⟨scrollback,.clear scrollback.currentAbsolute,maxCharsPerLine⟩

def currentLineLen (t : Terminal max) : Nat := t.lines.currentRef.len

def currentLineRemainingSpace (t : Terminal max) : Nat :=
  if t.currentLineLen ≥ t.maxCharsPerLine then 0 else t.maxCharsPerLine - t.currentLineLen

def lineFeed (t : Terminal max) : Terminal max := { t with lines := t.lines.lineFeed t.scrollback.currentAbsolute }

def ensureCurrentLineHasSpace (t : Terminal max) : Terminal max :=
  if t.currentLineRemainingSpace = 0 then t.lineFeed else t

/-- write_bytes of the scrollback, and the current line ends where it ends. -/
def writeHere (bytes : List UInt8) (t : Terminal max) : Option (Terminal max × Nat) :=
  (t.scrollback.writeBytes bytes).map fun (startAbs,scrollback) =>
    ({ t with scrollback, lines := t.lines.updateEnd (startAbs + bytes.length) },startAbs + bytes.length)

/-- The last space among the first bytes of a chunk. -/
def lastSpace (chunk : List UInt8) (n : Nat) : Option Nat := (List.range n).reverse.find? fun i => chunk[i]? == some 32

/-- Where a chunk that does not fit is split: behind the last space that fits, or where the room ends. -/
def splitAt (chunk : List UInt8) (space : Nat) : Nat :=
  let split := min space chunk.length
  let split := match lastSpace chunk split with
    | some i => i + 1
    | none => split
  if split = 0 then space else split

/-- Every pass appends something as long as a line has room for a byte, so one pass more than there
are bytes is never used up. -/
def appendLoop : Nat → List UInt8 → Terminal max → Option (Terminal max)
  | 0, _, _ => none
  | fuel+1, chunk, t =>
    if chunk = [] then some t
    else
      let t := t.ensureCurrentLineHasSpace
      let space := t.currentLineRemainingSpace
      if chunk.length ≤ space then
        (t.writeHere chunk).map fun (t,endAbs) => { t with lines := t.lines.forceLineFeedIfNeeded endAbs }
      else
        let split := splitAt chunk space
        (t.writeHere (chunk.take split)).bind fun (t,endAbs) =>
          appendLoop fuel (chunk.drop split) { t with lines := t.lines.lineFeed endAbs }

def appendChunkWithWrap (chunk : List UInt8) (t : Terminal max) : Option (Terminal max) :=
  appendLoop (chunk.length + 1) chunk t

/-- The bytes since seg_start, if there are any. -/
def flushSegment (segment : List UInt8) (t : Terminal max) : Option (Terminal max) :=
  if segment = [] then some t else t.appendChunkWithWrap segment

/-- The loop over the bytes, with those between seg_start and the next one. -/
def writeLoop : List UInt8 → List UInt8 → Terminal max → Option (Terminal max)
  | [], segment, t => t.flushSegment segment
  | byte :: bytes, segment, t =>
    if byte = 10 then (t.flushSegment segment).bind fun t => writeLoop bytes [] t.lineFeed
    else if byte = 13 then (t.flushSegment segment).bind fun t => writeLoop bytes [] t
    else writeLoop bytes (segment ++ [byte]) t

def writeBytesInternal (bytes : List UInt8) (t : Terminal max) : Option (Terminal max) := t.writeLoop bytes []

def writeStr (text : List UInt8) (t : Terminal max) : Option (Terminal max) := t.writeBytesInternal text

def writeLine (text : List UInt8) (t : Terminal max) : Option (Terminal max) := (t.writeBytesInternal text).map lineFeed

def newline (t : Terminal max) : Terminal max := t.lineFeed

def clear (t : Terminal max) : Terminal max := { t with lines := .clear t.scrollback.currentAbsolute }

def backspace (t : Terminal max) : Terminal max :=
  let cur := t.lines.currentRef
  if cur.isEmpty then t
  else { t with lines := t.lines.truncateLast (cur.onePastLastPos - 1), scrollback := t.scrollback.removeLastByte }

end Terminal

inductive TerminalOp where
  | writeStr (text : List UInt8)
  | writeLine (text : List UInt8)
  | newline
  | backspace
  | clear
  deriving DecidableEq, Repr

/-- What was written since the last clear: the lines that were ended, and what follows the last end. -/
structure Text where
  ended : List (List UInt8) := []
  last : List UInt8 := []
  deriving DecidableEq, Repr

namespace Text

def endLine (text : Text) : Text := ⟨text.ended ++ [text.last],[]⟩

def append (bytes : List UInt8) (text : Text) : Text := { text with last := text.last ++ bytes }

/-- Bytes are appended, a line feed ends the line and a carriage return is nothing. -/
def write : List UInt8 → Text → Text
  | [], text => text
  | byte :: bytes, text =>
    if byte = 10 then write bytes text.endLine
    else if byte = 13 then write bytes text
    else write bytes (text.append [byte])

/-- All bytes, in order. -/
def bytes (text : Text) : List UInt8 := (text.ended ++ [text.last]).flatten

end Text

section Step
variable {max : Nat} [NeZero max]

def exec : TerminalOp → Terminal max → Option (Terminal max)
  | .writeStr text, t => t.writeStr text
  | .writeLine text, t => t.writeLine text
  | .newline, t => some t.newline
  | .backspace, t => some t.backspace
  | .clear, t => some t.clear

/-- What the call makes of the text. A backspace deletes nothing when the current line is empty. -/
def Text.edit (t : Terminal max) : TerminalOp → Text → Text
  | .writeStr bytes, text => text.write bytes
  | .writeLine bytes, text => (text.write bytes).endLine
  | .newline, text => text.endLine
  | .backspace, text => if t.lines.currentRef.isEmpty then text else { text with last := text.last.dropLast }
  | .clear, _ => {}

/-- The terminal and the text side by side. -/
def step (op : TerminalOp) (s : Terminal max × Text) : Option (Terminal max × Text) :=
  (exec op s.1).map fun t => (t,s.2.edit s.1 op)

end Step
end MofuOS.Rustspace
