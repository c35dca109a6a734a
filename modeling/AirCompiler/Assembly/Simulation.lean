import AirCompiler.Assembly.Emitter
import AirCompiler.Expr.Basic
import AirCompiler.Machine.Run

/-!
# Assembly templates

Assembly for a whole constraint system, with addresses relative to memory regions. The code ends by
pushing the address of the output array. Against a memory layout it becomes a program without
relative addresses.

A simulation runs instantiated assembly on the machine, with the rows in memory, and reads the
values that it leaves in the output array.
-/

namespace AirCompiler

/-- Assembly with relative addresses. -/
structure Template where
  mode : Addressing
  shape : Shape
  params : Params
  prologue : Array Instruction
  buckets : Buckets (Array Instruction)
  /-- The address of the output array. -/
  output : Address
  /-- The number of constraints that the code evaluates. -/
  count : Nat

namespace Template

def epilogue (t : Template) : Array Instruction := #[.push (.address t.output)]

/-- The whole code. -/
def code (t : Template) : Array Instruction :=
  t.prologue ++ t.buckets.initial ++ t.buckets.consistency ++ t.buckets.transition ++
    t.buckets.terminal ++ t.epilogue

/-- Code for four buckets of constraints. Outputs are numbered through all of them. -/
def ofCircuits (e : Emitter) (shape : Shape) (cs : Buckets (List Circuit)) :
    Except CompileError Template := do
  let output ← e.outputAddress
  let afterInitial := cs.initial.length
  let afterConsistency := afterInitial + cs.consistency.length
  let afterTransition := afterConsistency + cs.transition.length
  let initial ← e.bucketCode cs.initial 0
  let consistency ← e.bucketCode cs.consistency afterInitial
  let transition ← e.bucketCode cs.transition afterConsistency
  let terminal ← e.bucketCode cs.terminal afterTransition
  return {
    mode := e.mode
    shape := shape
    params := e.params
    prologue := e.prologue
    buckets := ⟨initial, consistency, transition, terminal⟩
    output := output
    count := afterTransition + cs.terminal.length }

/-- The program for an integral layout of the template's addressing mode. -/
def instantiate (t : Template) (l : Layout) : Except LayoutError (Array Instruction) := do
  if l.mode ≠ t.mode then throw (.mismatch t.mode l.mode)
  l.check t.shape t.params
  t.code.mapM (Instruction.resolveWith l.resolve)

/-- Where a run leaves the evaluated constraints. -/
def outputArray (t : Template) (l : Layout) : Except LayoutError Int := l.resolve t.output

end Template

/-! ## Simulation -/

/-- Where the four rows start. -/
structure RowPointers where
  currentMain : Int
  currentAux : Int
  nextMain : Int
  nextAux : Int

/-- The pointers in the order of the rows. -/
def RowPointers.toList (p : RowPointers) : List Int :=
  [p.currentMain, p.currentAux, p.nextMain, p.nextAux]

namespace Template

/-- The stack before the first instruction, top first. Dynamic addressing finds the row pointers
there. -/
def initialStack (t : Template) (p : RowPointers) : List Int :=
  match t.mode with
  | .static => []
  | .dynamic => p.toList.reverse

/-- The machine with all rows and challenges stored. -/
def loaded (t : Template) (l : Layout) (p : RowPointers) (rows : Rows) : Machine :=
  Machine.initial (t.initialStack p) ∅
    |>.storeElements p.currentMain rows.currentMain.toList
    |>.storeElements p.currentAux rows.currentAux.toList
    |>.storeElements p.nextMain rows.nextMain.toList
    |>.storeElements p.nextAux rows.nextAux.toList
    |>.storeElements l.challengesPointer rows.challenges.toList

/-- The machine after the run, with the elements of the output array. -/
def simulate (t : Template) (l : Layout) (p : RowPointers) (rows : Rows) :
    Except LayoutError (Machine × List Ext) := do
  let code ← t.instantiate l
  let output ← t.outputArray l
  let final := (t.loaded l p rows).run code
  return (final, final.loadElements output t.count)

end Template

end AirCompiler
