/-!
# Reading integers

An integer is a sign, which may be missing, and decimal digits of any script. Blanks may stand
around it, and single underscores between digits. More than `maxDigits` digits are refused.
-/

namespace AirCompiler.Text

/-- The zeros of all scripts; the other nine digits follow each of them. -/
def zeros : List Nat :=
  [ 0x30, 0x660, 0x6f0, 0x7c0, 0x966, 0x9e6, 0xa66, 0xae6, 0xb66, 0xbe6, 0xc66, 0xce6,
    0xd66, 0xde6, 0xe50, 0xed0, 0xf20, 0x1040, 0x1090, 0x17e0, 0x1810, 0x1946, 0x19d0, 0x1a80,
    0x1a90, 0x1b50, 0x1bb0, 0x1c40, 0x1c50, 0xa620, 0xa8d0, 0xa900, 0xa9d0, 0xa9f0, 0xaa50, 0xabf0,
    0xff10, 0x104a0, 0x10d30, 0x11066, 0x110f0, 0x11136, 0x111d0, 0x112f0, 0x11450, 0x114d0,
    0x11650, 0x116c0, 0x11730, 0x118e0, 0x11950, 0x11c50, 0x11d50, 0x11da0, 0x16a60, 0x16ac0,
    0x16b50, 0x1d7ce, 0x1d7d8, 0x1d7e2, 0x1d7ec, 0x1d7f6, 0x1e140, 0x1e2f0, 0x1e950, 0x1fbf0]

/-- The value of a decimal digit. -/
def digit? (c : Char) : Option Nat :=
  (zeros.find? fun start => start ≤ c.toNat && c.toNat < start + 10).map fun start =>
    c.toNat - start

/-- Whether a character may stand around an integer. -/
def isBlank (c : Char) : Bool :=
  let n := c.toNat
  (9 ≤ n && n ≤ 13) || n == 0x20 || n == 0x85 || n == 0xa0 || n == 0x1680 ||
    (0x2000 ≤ n && n ≤ 0x200a) ||
    n == 0x2028 || n == 0x2029 || n == 0x202f || n == 0x205f || n == 0x3000

/-- The largest number of digits that is read. -/
def maxDigits : Nat := 4300

/-- The digits of a text with single underscores between them. -/
def digits? : List Char → Option (List Nat)
  | [] => none
  | [c] => (digit? c).map fun d => [d]
  | c :: '_' :: rest => do
    let d ← digit? c
    let ds ← digits? rest
    return d :: ds
  | c :: rest => do
    let d ← digit? c
    let ds ← digits? rest
    return d :: ds

/-- The natural number of a text of digits. -/
def natural? (s : List Char) : Option Nat := do
  let ds ← digits? s
  if maxDigits < ds.length then none else some (ds.foldl (fun n d => 10 * n + d) 0)

/-- A text without the blanks around it. -/
def trimBlanks (s : List Char) : List Char :=
  ((s.dropWhile isBlank).reverse.dropWhile isBlank).reverse

/-- The integer of a text. -/
def integer? (s : String) : Option Int :=
  match trimBlanks s.toList with
  | '-' :: rest => (natural? rest).map fun n => -(n : Int)
  | '+' :: rest => (natural? rest).map fun n => (n : Int)
  | rest => (natural? rest).map fun n => (n : Int)

/-- Whether a text is a minus sign before digits, with or without a decimal point among them. -/
def isNegativeNumber (s : String) : Bool :=
  let isDigit (c : Char) : Bool := (digit? c).isSome
  let body := match s.toList.reverse with
    | '\n' :: rest => rest.reverse
    | _ => s.toList
  match body with
  | '-' :: rest =>
    match rest.dropWhile isDigit with
    | [] => !rest.isEmpty
    | '.' :: fraction => !fraction.isEmpty && fraction.all isDigit
    | _ => false
  | _ => false

end AirCompiler.Text
