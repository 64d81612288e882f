import Chip8.Instruction.Parser
import Chip8.Journal

/-!
Assembling a program line by line. A line is an instruction or, alone on its line, a hexadecimal
constant of up to sixteen bits. Any other line becomes a zero word and is reported by its index,
so the program always has one word for each line.
-/

namespace Chip8
open Text

def lineWord? (line : List Char) : Option Word :=
  match Instruction.ofChars? line with
  | some ins => some ins.word
  | none => (Hex.literal? 0xFFFF (trim line)).map UInt16.ofNat

structure Assembly where
  words : List Word
  failures : List Nat
deriving DecidableEq, Repr

namespace Assembly

/-- The indices of the lines without a word, where the first line has index `k`. -/
def failuresFrom : Nat → List String → List Nat
  | _, [] => []
  | k, l :: ls =>
    if (lineWord? l.toList).isNone then k :: failuresFrom (k + 1) ls else failuresFrom (k + 1) ls

def ofLines (lines : List String) : Assembly where
  words := lines.map fun l => (lineWord? l.toList).getD 0
  failures := failuresFrom 0 lines

def isOk (a : Assembly) : Bool := a.failures.isEmpty

def bytes (a : Assembly) : List UInt8 := Word.join a.words

def records (lines : List String) : List Record :=
  (ofLines lines).failures.map fun k => .lineRefused k (lines.getD k "")

theorem length_words (lines : List String) : (ofLines lines).words.length = lines.length := by
  simp [ofLines]

theorem failuresFrom_append (k : Nat) (as bs : List String) :
    failuresFrom k (as ++ bs) = failuresFrom k as ++ failuresFrom (k + as.length) bs := by
  induction as generalizing k with
  | nil => rfl
  | cons a as ih =>
    simp only [List.cons_append, failuresFrom, ih, List.length_cons]
    rw [show k + 1 + as.length = k + (as.length + 1) by omega]
    split <;> rfl

end Assembly
end Chip8
