import Chip8.Journal

/-!
Listing an image two bytes at a time. A word that is no instruction is listed as a constant, and
so is a last byte that stands alone.
-/

namespace Chip8
open Text

structure Listing where
  lines : List String
  failures : List Nat
deriving DecidableEq, Repr

namespace Listing

def byteText (b : UInt8) : List Char := '0' :: 'x' :: Hex.fixed 2 b.toNat

def failuresFrom : Nat → List Word → List Nat
  | _, [] => []
  | k, w :: ws =>
    if Opcode.decode w = .invalid then k :: failuresFrom (k + 1) ws else failuresFrom (k + 1) ws

def ofImage (image : List UInt8) : Listing :=
  let r := Word.split image
  { lines := r.1.map (fun w => (Instruction.ofWord w).text) ++
      r.2.toList.map fun b => String.ofList (byteText b)
    failures := failuresFrom 0 r.1 }

def records (image : List UInt8) : List Record :=
  let ws := (Word.split image).1
  (failuresFrom 0 ws).map fun k => .wordUnknown k (ws.getD k 0)

end Listing
end Chip8
