/-!
Hexadecimal numerals. `fixed` writes the low digits of a number in capitals, `padded` writes all
of them and at least so many, and `literal?` reads a numeral of either case behind an optional
`0x`, of any length but not above a limit.
-/

namespace Chip8.Text.Hex

def upperDigit (d : Nat) : Char := Char.ofNat (if d < 10 then 48 + d else 55 + d)
def lowerDigit (d : Nat) : Char := Char.ofNat (if d < 10 then 48 + d else 87 + d)

def fixed : Nat → Nat → List Char
  | 0, _ => []
  | width + 1, n => fixed width (n / 16) ++ [upperDigit (n % 16)]

def size (n : Nat) : Nat := if n = 0 then 0 else n.log2 / 4 + 1

def padded (width n : Nat) : List Char := fixed (max width (size n)) n

def text (width n : Nat) : String := String.ofList (padded width n)

def listText (width : Nat) (ns : List Nat) : String :=
  "[" ++ ", ".intercalate (ns.map (text width)) ++ "]"

def digit? (c : Char) : Option Nat :=
  let n := c.toNat
  if 48 ≤ n ∧ n ≤ 57 then some (n - 48)
  else if 97 ≤ n ∧ n ≤ 102 then some (n - 87)
  else if 65 ≤ n ∧ n ≤ 70 then some (n - 55)
  else none

def unmark : List Char → List Char
  | a :: b :: cs => if a = '0' ∧ (b = 'x' ∨ b = 'X') then cs else a :: b :: cs
  | cs => cs

def value? (acc : Nat) : List Char → Option Nat
  | [] => some acc
  | c :: cs => (digit? c).bind fun d => value? (16 * acc + d) cs

def literal? (limit : Nat) (cs : List Char) : Option Nat :=
  match unmark cs with
  | [] => none
  | c :: cs => (value? 0 (c :: cs)).filter (· ≤ limit)

theorem digit?_upperDigit {d : Nat} (h : d < 16) : digit? (upperDigit d) = some d := by
  revert d; decide

theorem digit?_lowerDigit {d : Nat} (h : d < 16) : digit? (lowerDigit d) = some d := by
  revert d; decide

theorem length_fixed (width n : Nat) : (fixed width n).length = width := by
  induction width generalizing n with
  | zero => rfl
  | succ width ih => simp [fixed, ih]

theorem value?_append (acc : Nat) (as bs : List Char) :
    value? acc (as ++ bs) = (value? acc as).bind fun n => value? n bs := by
  induction as generalizing acc with
  | nil => rfl
  | cons a as ih =>
    simp only [List.cons_append, value?]
    cases digit? a with
    | none => rfl
    | some d => exact ih _

def scale : Nat → Nat
  | 0 => 1
  | width + 1 => 16 * scale width

theorem value?_fixed (acc width n : Nat) :
    value? acc (fixed width n) = some (acc * scale width + n % scale width) := by
  induction width generalizing n with
  | zero => simp [fixed, value?, scale, Nat.mod_one]
  | succ width ih =>
    rw [fixed, value?_append, ih]
    have hd := digit?_upperDigit (Nat.mod_lt n (by decide : 16 > 0))
    have hm : n % scale (width + 1) = n % 16 + 16 * (n / 16 % scale width) := Nat.mod_mul
    have hs : acc * scale (width + 1) = 16 * (acc * scale width) := Nat.mul_left_comm ..
    simp only [Option.bind_some, value?, hd]
    congr 1
    rw [hm, hs]
    omega

end Chip8.Text.Hex
