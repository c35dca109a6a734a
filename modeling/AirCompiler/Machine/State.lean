import AirCompiler.Field.Scalar
import AirCompiler.Machine.Instruction
import Std.Data.TreeMap

/-!
# Machine states

The stack machine has a stack of words, a memory of words and a program counter. An extension
element takes three words: on the stack with its lowest coefficient on top, in memory with its
lowest coefficient at the lowest address.

Words are written to memory as they come. What is pushed is reduced to its representative.
-/

namespace AirCompiler

/-- Why a run failed. -/
inductive Failure where
  /-- An instruction popped an empty stack. -/
  | underflow (i : Instruction) (position : Nat)
  /-- An instruction that the machine does not execute. -/
  | unsupported (i : Instruction)
  deriving DecidableEq

/-- The text that reports a failed run. -/
def Failure.message : Failure → String
  | .underflow i position => s!"stack underflow in {i.text} at {position}"
  | .unsupported i => s!"unsupported instruction {i.text}"

/-- An argument that was to be computed with, while it is an address still to be resolved. -/
inductive Unresolved where
  /-- It was to be pushed. -/
  | pushed
  /-- It was to be added to the top of the stack. -/
  | added
  deriving DecidableEq

/-- The text that reports an unresolved argument. -/
def Unresolved.message : Unresolved → String
  | .pushed => "unsupported operand type(s) for %: 'Address' and 'int'"
  | .added => "unsupported operand type(s) for +: 'int' and 'Address'"

/-- Whether a run goes on. -/
inductive Status where
  | running
  | halted
  | failed (reason : Failure)
  /-- The run came upon an unresolved argument. Unlike a failed one, it can be resumed behind the
  instruction. -/
  | stuck (cause : Unresolved)
  deriving DecidableEq

/-- The state of the machine. The stack's top comes first; a word of memory that was never set reads
as zero. -/
structure Machine where
  pc : Nat
  stack : List Int
  ram : Std.TreeMap Int Int
  status : Status
  /-- The addresses written by instructions, in order. -/
  written : Array Int

/-- An empty stack was popped. -/
inductive Underflow where
  | underflow
  deriving DecidableEq

/-- A computation on the machine's state. What was popped before a failure stays popped. -/
abbrev Exec := EStateM Underflow Machine

namespace Machine

/-- The machine at the start of a program. -/
def initial (stack : List Int) (ram : Std.TreeMap Int Int) : Machine :=
  ⟨0, stack, ram, .running, #[]⟩

/-- Lets a stuck machine go on. -/
def resume (m : Machine) : Machine :=
  match m.status with
  | .stuck _ => { m with status := .running }
  | _ => m

/-- The word at an address. -/
def load (m : Machine) (address : Int) : Int := m.ram.getD (address % prime) 0

def store (m : Machine) (address word : Int) : Machine :=
  { m with ram := m.ram.insert (address % prime) word }

/-- Stores a word as an instruction does: the address is noted. -/
def record (m : Machine) (address word : Int) : Machine :=
  { m.store address word with written := m.written.push (address % prime) }

def pushWord (m : Machine) (word : Int) : Machine := { m with stack := word % prime :: m.stack }

/-- Pushes an extension element. -/
def pushExt (m : Machine) (x : Ext) : Machine :=
  ((m.pushWord x.c2.val).pushWord x.c1.val).pushWord x.c0.val

/-- Stores an extension element in three words. -/
def storeElement (m : Machine) (address : Int) (x : Ext) : Machine :=
  ((m.store address x.c0.val).store (address + 1) x.c1.val).store (address + 2) x.c2.val

/-- Stores elements one after another, lifted to the extension. -/
def storeElements (m : Machine) (address : Int) : List Scalar → Machine
  | [] => m
  | x :: xs => (m.storeElement address x.lift).storeElements (address + 3) xs

/-- The extension element in the three words at an address. -/
def loadElement (m : Machine) (address : Int) : Ext :=
  ⟨.ofInt (m.load address), .ofInt (m.load (address + 1)), .ofInt (m.load (address + 2))⟩

/-- Elements stored one after another. -/
def loadElements (m : Machine) (address : Int) (count : Nat) : List Ext :=
  (List.range count).map fun (i : Nat) => m.loadElement (address + 3 * i)

end Machine

namespace Exec

/-- Pops a word. -/
def pop : Exec Int := fun m =>
  match m.stack with
  | [] => .error .underflow m
  | word :: stack => .ok word { m with stack := stack }

def push (word : Int) : Exec Unit := modify fun m => m.pushWord word

/-- Pops an extension element. -/
def popExt : Exec Ext := do
  let c0 ← pop
  let c1 ← pop
  let c2 ← pop
  return ⟨.ofInt c0, .ofInt c1, .ofInt c2⟩

/-- Pushes an extension element. -/
def pushExt (x : Ext) : Exec Unit := modify fun m => m.pushExt x

end Exec

end AirCompiler
