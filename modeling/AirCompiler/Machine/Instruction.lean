import AirCompiler.Memory.Region

/-!
# Instructions

The instruction set of the stack machine. Generated code uses the straight-line part only; control
flow belongs to the vocabulary so that code can be checked against it. The argument of `push`,
`addi` and `call` may be an address that is not yet resolved.
-/

namespace AirCompiler

/-- The operation of an instruction. -/
inductive Opcode where
  | halt
  | nop
  | push
  | pop
  | addi
  | xxAdd
  | xxMul
  | skiz
  | call
  | ret
  | recurse
  | recurseOrReturn
  | readMem
  | writeMem
  deriving DecidableEq

namespace Opcode

def all : List Opcode :=
  [.halt, .nop, .push, .pop, .addi, .xxAdd, .xxMul, .skiz, .call, .ret, .recurse, .recurseOrReturn,
    .readMem, .writeMem]

/-- The word that stands for the opcode in an encoded program. -/
def code : Opcode → Nat
  | .halt => 0x00
  | .nop => 0x01
  | .push => 0x10
  | .pop => 0x11
  | .addi => 0x20
  | .xxAdd => 0x21
  | .xxMul => 0x22
  | .skiz => 0x30
  | .call => 0x31
  | .ret => 0x32
  | .recurse => 0x33
  | .recurseOrReturn => 0x34
  | .readMem => 0x40
  | .writeMem => 0x41

/-- The name of the opcode in assembly. -/
def mnemonic : Opcode → String
  | .halt => "halt"
  | .nop => "nop"
  | .push => "push"
  | .pop => "pop"
  | .addi => "addi"
  | .xxAdd => "xx_add"
  | .xxMul => "xx_mul"
  | .skiz => "skiz"
  | .call => "call"
  | .ret => "return"
  | .recurse => "recurse"
  | .recurseOrReturn => "recurse_or_return"
  | .readMem => "read_mem"
  | .writeMem => "write_mem"

def ofCode? (word : Int) : Option Opcode := all.find? fun op => (op.code : Int) == word

def ofMnemonic? (name : String) : Option Opcode := all.find? fun op => op.mnemonic == name

def hasArgument : Opcode → Bool
  | .push | .pop | .addi | .call | .readMem | .writeMem => true
  | _ => false

/-- Whether the instruction leaves the straight line. -/
def isControlFlow : Opcode → Bool
  | .call | .ret | .recurse | .recurseOrReturn | .skiz | .halt => true
  | _ => false

end Opcode

/-- An argument: a word, or an address still to be resolved. -/
inductive Argument where
  | word (n : Int)
  | address (a : Address)
  deriving DecidableEq

def Argument.text : Argument → String
  | .word n => toString n
  | .address a => a.text

/-- A number of words that one instruction can move: one to five. -/
structure WordCount where
  val : Nat
  one_le : 1 ≤ val
  le_five : val ≤ 5
  deriving DecidableEq

namespace WordCount

def one : WordCount := ⟨1, by decide, by decide⟩

/-- The words of an extension element. -/
def three : WordCount := ⟨3, by decide, by decide⟩

/-- The count of an integer in range. -/
def ofInt? (n : Int) : Option WordCount :=
  if h : 1 ≤ n ∧ n ≤ 5 then some ⟨n.toNat, by omega, by omega⟩ else none

end WordCount

inductive Instruction where
  | halt
  | nop
  /-- Pushes a word. -/
  | push (a : Argument)
  /-- Pops words. -/
  | pop (n : WordCount)
  /-- Adds to the top of the stack. -/
  | addi (a : Argument)
  /-- Pops two extension elements and pushes their sum. -/
  | xxAdd
  /-- Pops two extension elements and pushes their product. -/
  | xxMul
  | skiz
  | call (a : Argument)
  | ret
  | recurse
  | recurseOrReturn
  /-- Pops a pointer `p`, pushes the words at `p`, `p - 1`, …, then the pointer before them. -/
  | readMem (n : WordCount)
  /-- Pops a pointer `p`, pops words into `p`, `p + 1`, …, then pushes the pointer after them. -/
  | writeMem (n : WordCount)
  deriving DecidableEq

/-- Why there is no such instruction, or no encoding of it. -/
inductive InstructionError where
  | needsArgument (op : Opcode)
  | takesNoArgument (op : Opcode)
  /-- A number of words outside one to five. -/
  | wordCount (op : Opcode) (n : Int)
  /-- A number of words given as an address. -/
  | symbolicCount
  /-- The argument is an address still to be resolved. -/
  | unresolved (a : Address)
  /-- The argument is not the representative of a base element. -/
  | notCanonical (n : Int)
  deriving DecidableEq

/-- The text that reports an instruction error. -/
def InstructionError.message : InstructionError → String
  | .needsArgument op => s!"Instruction {op.mnemonic} needs an argument"
  | .takesNoArgument op => s!"Instruction {op.mnemonic} takes no argument"
  | .wordCount op n => s!"Invalid number of words for {op.mnemonic}: {n}"
  | .symbolicCount => "'<=' not supported between instances of 'int' and 'Address'"
  | .unresolved a => s!"Cannot encode unresolved argument {a.description}"
  | .notCanonical n => s!"Argument {n} is not a canonical field element"

namespace Instruction

def opcode : Instruction → Opcode
  | .halt => .halt
  | .nop => .nop
  | .push _ => .push
  | .pop _ => .pop
  | .addi _ => .addi
  | .xxAdd => .xxAdd
  | .xxMul => .xxMul
  | .skiz => .skiz
  | .call _ => .call
  | .ret => .ret
  | .recurse => .recurse
  | .recurseOrReturn => .recurseOrReturn
  | .readMem _ => .readMem
  | .writeMem _ => .writeMem

/-- The argument of an instruction; a number of words is one, too. -/
def argument? : Instruction → Option Argument
  | .push a | .addi a | .call a => some a
  | .pop n | .readMem n | .writeMem n => some (.word n.val)
  | _ => none

def countOf (op : Opcode) : Argument → Except InstructionError WordCount
  | .address _ => .error .symbolicCount
  | .word n =>
    match WordCount.ofInt? n with
    | some count => .ok count
    | none => .error (.wordCount op n)

def withArgument (op : Opcode) (a : Argument) : Except InstructionError Instruction :=
  match op with
  | .push => .ok (.push a)
  | .addi => .ok (.addi a)
  | .call => .ok (.call a)
  | .pop => .pop <$> countOf op a
  | .readMem => .readMem <$> countOf op a
  | .writeMem => .writeMem <$> countOf op a
  | _ => .error (.takesNoArgument op)

/-- The instruction of an opcode that has no argument. -/
def withoutArgument (op : Opcode) : Except InstructionError Instruction :=
  match op with
  | .halt => .ok .halt
  | .nop => .ok .nop
  | .xxAdd => .ok .xxAdd
  | .xxMul => .ok .xxMul
  | .skiz => .ok .skiz
  | .ret => .ok .ret
  | .recurse => .ok .recurse
  | .recurseOrReturn => .ok .recurseOrReturn
  | _ => .error (.needsArgument op)

def make (op : Opcode) : Option Argument → Except InstructionError Instruction
  | some a => withArgument op a
  | none => withoutArgument op

/-- The number of words of the encoding. -/
def size (i : Instruction) : Nat := if i.opcode.hasArgument then 2 else 1

/-- The instruction as a line of assembly. -/
def text (i : Instruction) : String :=
  match i.argument? with
  | none => i.opcode.mnemonic
  | some a => s!"{i.opcode.mnemonic} {a.text}"

/-- Replaces the address in an argument by the word that it names. -/
def resolveWith {ε : Type} (f : Address → Except ε Int) : Instruction → Except ε Instruction
  | .push (.address a) => return .push (.word (← f a))
  | .addi (.address a) => return .addi (.word (← f a))
  | .call (.address a) => return .call (.word (← f a))
  | i => .ok i

end Instruction

/-- Code that loads the element which ends at an address. -/
def loadCode (last : Argument) : Array Instruction := #[.push last, .readMem .three, .pop .one]

/-- Code that stores the element on top of the stack at an address. -/
def storeCode (first : Argument) : Array Instruction := #[.push first, .writeMem .three, .pop .one]

/-- The line that declares a label in assembly. -/
def labelLine (name : String) : String := s!"{name}:"

def assemblyText (code : List Instruction) : String :=
  "\n".intercalate (code.map Instruction.text) ++ "\n"

end AirCompiler
