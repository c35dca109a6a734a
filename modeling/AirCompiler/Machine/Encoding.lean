import AirCompiler.Machine.Instruction

/-!
# Encoded programs

A program is encoded as the number of its instructions, followed by the words of each: its opcode,
and its argument if it has one.
-/

namespace AirCompiler

/-- The words of one instruction. -/
def Instruction.encode (i : Instruction) : Except InstructionError (List Int) :=
  match i.argument? with
  | none => .ok [i.opcode.code]
  | some (.address a) => .error (.unresolved a)
  | some (.word n) =>
    if 0 ≤ n ∧ n < prime then .ok [i.opcode.code, n] else .error (.notCanonical n)

/-- Why words are no program. -/
inductive DecodeError where
  | empty
  | truncated
  | opcode (word : Int)
  /-- Words are left over after the last instruction. -/
  | trailing (count : Nat)
  | instruction (e : InstructionError)
  deriving DecidableEq

/-- The text that reports a decode error. -/
def DecodeError.message : DecodeError → String
  | .empty => "Empty program encoding"
  | .truncated => "Truncated program encoding"
  | .opcode word => s!"{word} is not a valid Opcode"
  | .trailing count => s!"Trailing words in program encoding: {count}"
  | .instruction e => e.message

namespace Program

/-- The words of a program. -/
def encode (code : List Instruction) : Except InstructionError (List Int) := do
  let words ← code.mapM Instruction.encode
  return code.length :: words.flatten

/-- The first instruction of a list of words, and the words after it. Arguments are reduced. -/
def decodeOne (words : List Int) : Except DecodeError (Instruction × List Int) :=
  match words with
  | [] => .error .truncated
  | word :: rest =>
    match Opcode.ofCode? word with
    | none => .error (.opcode word)
    | some op =>
      if op.hasArgument then
        match rest with
        | [] => .error .truncated
        | arg :: rest => do
          let i ← (Instruction.make op (some (.word (arg % prime)))).mapError .instruction
          return (i, rest)
      else do
        let i ← (Instruction.make op none).mapError .instruction
        return (i, rest)

/-- The given number of instructions from a list of words, and the words after them. -/
def decodeMany : Nat → List Int → Except DecodeError (List Instruction × List Int)
  | 0, words => .ok ([], words)
  | n + 1, words => do
    let (i, rest) ← decodeOne words
    let (code, rest) ← decodeMany n rest
    return (i :: code, rest)

/-- The program of a list of words. A negative number of instructions counts as none. -/
def decode (words : List Int) : Except DecodeError (List Instruction) :=
  match words with
  | [] => .error .empty
  | count :: words => do
    let (code, rest) ← decodeMany count.toNat words
    if rest.isEmpty then return code else throw (.trailing rest.length)

end Program

end AirCompiler
