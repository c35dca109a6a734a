import AirCompiler.Machine.Instruction
import AirCompiler.Memory.Layout
import AirCompiler.Sharing.Plan

/-!
# Emitting assembly

Straight-line code that evaluates constraints. Addresses are relative to memory regions. With static
addressing every row lies at a known place. With dynamic addressing the code begins with four row
pointers on the stack, stores them in the first words of the scratch page, and reads rows through
them; all other scratch words then move up by the words kept for pointers.

In the scratch area, shared node `n` is at word `3 * n`, and output `i` at word
`3 * (outputOffset + i)`.
-/

namespace AirCompiler

/-- Offsets from here on are refused. A smaller one can be added to any address without overflow of
a 64-bit word. So could this one, but no larger one. -/
def maxOffset : Int := Int.pow 2 64 - prime

/-- Emits code in one addressing mode. -/
structure Emitter where
  mode : Addressing
  params : Params

def Region.ofRow : Row → Table → Region
  | .current, .main => .currentMain
  | .current, .aux => .currentAux
  | .next, .main => .nextMain
  | .next, .aux => .nextAux

/-- The word of the scratch page that holds the pointer to a row. -/
def Region.pointerSlot? : Region → Option Int
  | .currentMain => some 0
  | .currentAux => some 1
  | .nextMain => some 2
  | .nextAux => some 3
  | .page | .challenges => none

/-- Code that pushes an extension element. -/
def pushCode (x : Ext) : Array Instruction :=
  #[.push (.word x.c2.val), .push (.word x.c1.val), .push (.word x.c0.val)]

/-- The instruction of an operation. -/
def Op.instruction : Op → Instruction
  | .add => .xxAdd
  | .mul => .xxMul

/-- Refuses an offset that is not below the bound. -/
def checkOffset (offset : Int) : Except CompileError Int :=
  if maxOffset ≤ offset then .error (.offsetOverflow offset) else .ok offset

namespace Emitter

/-- The first word of the scratch area within the page. -/
def scratchOffset (e : Emitter) : Int :=
  match e.mode with
  | .static => 0
  | .dynamic => e.params.pointers

def scratchAddress (e : Emitter) (word : Int) : Except CompileError Address := do
  let offset ← checkOffset (e.scratchOffset + word)
  return ⟨.page, offset⟩

/-- Loads an element of a region at a known place. -/
def loadElement (region : Region) (index : Int) : Except CompileError (Array Instruction) := do
  let offset ← checkOffset (3 * index + 2)
  return loadCode (.address ⟨region, offset⟩)

def loadRowElement (e : Emitter) (region : Region) (column : Int) :
    Except CompileError (Array Instruction) :=
  match e.mode with
  | .static => loadElement region column
  | .dynamic => do
    let offset ← checkOffset (3 * column + 2)
    match region.pointerSlot? with
    | none => throw .noPointerSlot
    | some slot =>
      return #[.push (.address ⟨.page, slot⟩), .readMem .one, .pop .one, .addi (.word offset),
        .readMem .three, .pop .one]

/-- Refuses a shared node whose slot would lie in the output array. -/
def checkShared (e : Emitter) (id : Int) : Except CompileError Unit :=
  if e.params.outputOffset ≤ id then .error (.sharedCollision id e.params.outputOffset) else .ok ()

def loadShared (e : Emitter) (id : Int) : Except CompileError (Array Instruction) := do
  e.checkShared id
  let address ← e.scratchAddress (3 * id + 2)
  return loadCode (.address address)

def storeShared (e : Emitter) (id : Int) : Except CompileError (Array Instruction) := do
  e.checkShared id
  let address ← e.scratchAddress (3 * id)
  return storeCode (.address address)

/-- Stores an evaluated constraint. -/
def storeOutput (e : Emitter) (index : Int) : Except CompileError (Array Instruction) := do
  if e.params.capacity ≤ index then throw (.outputOverflow e.params.capacity)
  let address ← e.scratchAddress (3 * (e.params.outputOffset + index))
  return storeCode (.address address)

/-- Moves the row pointers from the stack to their slots, the last one first. -/
def prologue (e : Emitter) : Array Instruction :=
  match e.mode with
  | .static => #[]
  | .dynamic =>
    #[3, 2, 1, 0].flatMap fun slot => #[.push (.address ⟨.page, slot⟩), .writeMem .one, .pop .one]

def outputAddress (e : Emitter) : Except CompileError Address :=
  e.scratchAddress (3 * e.params.outputOffset)

def leafCode (e : Emitter) : Leaf → Except CompileError (Array Instruction)
  | .constant s => .ok (pushCode s.lift)
  | .input c => e.loadRowElement (.ofRow c.row c.table) c.column
  | .challenge i => loadElement .challenges i

/-- Emits the code of nodes; those in scope are loaded. -/
def visitor (e : Emitter) (scope : Scope) : Visitor (Except CompileError (Array Instruction)) where
  bound n := if scope.contains n.id then some (e.loadShared n.id) else none
  leaf := e.leafCode
  operation op x y := do
    let x ← x
    let y ← y
    return (x ++ y).push op.instruction

/-- Code that leaves the value of a node on top of the stack. -/
def nodeCode (e : Emitter) (a : Arena) (scope : Scope) (n : Node) :
    Except CompileError (Array Instruction) :=
  match a.fold (e.visitor scope) n with
  | some code => code
  | none => .error .unknownNode

/-- Code emitted so far, and the nodes that it stores. -/
structure Emitted where
  scope : Scope
  code : Array Instruction

/-- Emits and stores one shared node. -/
def emitShared (e : Emitter) (a : Arena) (done : Emitted) (id : Nat) :
    Except CompileError Emitted :=
  match a.node? id with
  | none => .error .unknownNode
  | some n => do
    let code ← e.nodeCode a done.scope n
    let store ← e.storeShared id
    let scope ← done.scope.declare id
    return ⟨scope, done.code ++ code ++ store⟩

/-- Emits constraints and stores their values from the given output index on. -/
def emitOutputs (e : Emitter) (a : Arena) (scope : Scope) :
    Int → List Circuit → Array Instruction → Except CompileError (Array Instruction)
  | _, [], done => .ok done
  | index, c :: cs, done => do
    let code ← e.nodeCode a scope c.node
    let store ← e.storeOutput index
    e.emitOutputs a scope (index + 1) cs (done ++ code ++ store)

/-- Code for one bucket: the shared nodes, then the constraints over the base field, then the
others. -/
def bucketCode (e : Emitter) (cs : List Circuit) (firstOutput : Int) :
    Except CompileError (Array Instruction) :=
  match cs with
  | [] => .ok #[]
  | first :: _ => do
    let plan ← Plan.ofCircuits cs
    let shared ← plan.order.foldlM (e.emitShared first.arena) ⟨.empty, #[]⟩
    let outputs := (cs.filter fun c => c.isBase) ++ cs.filter fun c => !c.isBase
    e.emitOutputs first.arena shared.scope firstOutput outputs shared.code

end Emitter

end AirCompiler
