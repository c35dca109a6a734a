import AirCompiler.Machine.State

/-!
# Running programs

A step executes the instruction at the program counter, which is advanced first. Beyond the last
instruction the machine halts. Popping an empty stack and instructions of control flow fail the run.
An argument that is still an address leaves the machine stuck. A machine that has halted, failed or
is stuck stays as it is.
-/

namespace AirCompiler

namespace Exec

/-- Pops the given number of words. -/
def drop : Nat → Exec Unit
  | 0 => pure ()
  | n + 1 => do
    let _ ← pop
    drop n

/-- Pushes the words at an address and below it. -/
def readWords (pointer : Int) (count : Nat) : Exec Unit :=
  (List.range count).forM fun (i : Nat) => modify fun m => m.pushWord (m.load (pointer - i))

/-- Pops one word into memory. -/
def writeWord (address : Int) : Exec Unit := do
  let word ← pop
  modify fun m => m.record address word

/-- Pops words to an address and above it. -/
def writeWords (pointer : Int) (count : Nat) : Exec Unit :=
  (List.range count).forM fun (i : Nat) => writeWord (pointer + i)

/-- Pops two extension elements and pushes the result of an operation on them. -/
def extOperation (f : Ext → Ext → Ext) : Exec Unit := do
  let y ← popExt
  let x ← popExt
  pushExt (f x y)

/-- Ends the run. -/
def stop (status : Status) : Exec Unit := modify fun m => { m with status := status }

def instruction (i : Instruction) : Exec Unit :=
  match i with
  | .nop => pure ()
  | .push (.word n) => push n
  | .push (.address _) => stop (.stuck .pushed)
  | .pop n => drop n.val
  | .addi (.word n) => do
    let word ← pop
    push (word + n)
  | .addi (.address _) => do
    let _ ← pop
    stop (.stuck .added)
  | .readMem n => do
    let pointer ← pop
    readWords pointer n.val
    push (pointer - n.val)
  | .writeMem n => do
    let pointer ← pop
    writeWords pointer n.val
    push (pointer + n.val)
  | .xxAdd => extOperation (· + ·)
  | .xxMul => extOperation (· * ·)
  | .halt => stop .halted
  | i => stop (.failed (.unsupported i))

end Exec

namespace Machine

/-- Executes an instruction that stands at a position of the program. -/
def execute (i : Instruction) (position : Nat) (m : Machine) : Machine :=
  match Exec.instruction i { m with pc := position + 1 } with
  | .ok () m => m
  | .error _ m => { m with status := .failed (.underflow i position) }

/-- One step of a program. -/
def step (code : Array Instruction) (m : Machine) : Machine :=
  match m.status with
  | .running =>
    match code[m.pc]? with
    | some i => m.execute i m.pc
    | none => { m with status := .halted }
  | _ => m

/-- A machine that does not run stays as it is. -/
theorem step_of_ne_running {m : Machine} (code : Array Instruction) (h : m.status ≠ .running) :
    m.step code = m := by
  unfold step
  split
  · contradiction
  · rfl

/-- The given number of steps. -/
def steps (code : Array Instruction) : Nat → Machine → Machine
  | 0, m => m
  | n + 1, m => steps code n (m.step code)

theorem steps_of_ne_running {m : Machine} (code : Array Instruction) (h : m.status ≠ .running)
    (n : Nat) : m.steps code n = m := by
  induction n with
  | zero => rfl
  | succ n ih => rw [steps, step_of_ne_running code h, ih]

theorem steps_add (code : Array Instruction) (m n : Nat) (s : Machine) :
    s.steps code (m + n) = (s.steps code m).steps code n := by
  induction m generalizing s with
  | zero => rw [Nat.zero_add]; rfl
  | succ m ih => rw [Nat.succ_add, steps, steps, ih]

/-- Runs a program until it halts, fails or is stuck. Every step advances the program counter or
ends the run, so there is one step for each instruction left, and one to halt. -/
def run (code : Array Instruction) (m : Machine) : Machine := m.steps code (code.size - m.pc + 1)

end Machine

end AirCompiler
