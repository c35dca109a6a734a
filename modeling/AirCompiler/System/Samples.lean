import AirCompiler.System.Basic

/-!
# Sample constraint systems

`ConstraintSystem.fibonacci` has two main columns that hold consecutive Fibonacci numbers and an
auxiliary column with a running evaluation of the first. No constraint has a degree above two, so
lowering leaves it as it is.

`ConstraintSystem.synthetic` uses every kind of node and every way of lowering: powers above the
target degree, chains of substitutions, expressions over the extension, and subexpressions shared
within a bucket and between buckets.
-/

namespace AirCompiler

namespace Build

/-- The sum of two nodes. -/
def plus (l r : Nat) : Build Nat := combine .add l r

/-- The product of two nodes. -/
def times (l r : Nat) : Build Nat := combine .mul l r

/-- A cell of the current main row. -/
def currentMain (column : Int) : Build Nat := input ⟨.current, .main, column⟩

/-- A cell of the current auxiliary row. -/
def currentAux (column : Int) : Build Nat := input ⟨.current, .aux, column⟩

/-- A cell of the next main row. -/
def nextMain (column : Int) : Build Nat := input ⟨.next, .main, column⟩

/-- A cell of the next auxiliary row. -/
def nextAux (column : Int) : Build Nat := input ⟨.next, .aux, column⟩

end Build

namespace ConstraintSystem

open Build

/-- The system whose four buckets a construction yields in a new arena. -/
def ofBuild (shape : Shape) (build : Build (Buckets (List Nat))) : ConstraintSystem :=
  match build (.empty 0) with
  | .ok ids arena => ⟨arena, shape, ids.map fun bucket => bucket.map fun id => ⟨arena.name, id⟩⟩
  | .error _ arena => ⟨arena, shape, .ofFn fun _ => []⟩

/-- Fibonacci numbers with a running evaluation. -/
def fibonacci : ConstraintSystem := ofBuild ⟨2, 1, 1⟩ do
  let a ← currentMain 0
  let b ← currentMain 1
  let a' ← nextMain 0
  let b' ← nextMain 1
  let e ← currentAux 0
  let e' ← nextAux 0
  let indeterminate ← challenge 0
  let startA ← difference a (← one)
  let startB ← difference b (← one)
  let startE ← difference e a
  let stepA ← difference a' b
  let stepB ← difference b' (← plus a b)
  let stepE ← difference e' (← plus (← times indeterminate e) a')
  return ⟨[startA, startB, startE], [], [stepA, stepB, stepE], []⟩

/-- A system that exercises every kind of node and every way of lowering. -/
def synthetic : ConstraintSystem := ofBuild ⟨4, 2, 3⟩ do
  let m0 ← currentMain 0
  let m1 ← currentMain 1
  let m2 ← currentMain 2
  let m3 ← currentMain 3
  let a0 ← currentAux 0
  let a1 ← currentAux 1
  let n0 ← nextMain 0
  let n1 ← nextMain 1
  let n2 ← nextMain 2
  let n3 ← nextMain 3
  let b0 ← nextAux 0
  let b1 ← nextAux 1
  let c0 ← challenge 0
  let c1 ← challenge 1
  let c2 ← challenge 2
  let x : Scalar := .ext ⟨.ofNat 2, .ofNat 3, .ofNat 5⟩
  let square ← times (← plus m0 m1) (← plus m0 m1)
  let initial0 ← difference m0 (← one)
  let initial1 ← difference (← pow m1 5) m2
  let initial2 ← difference a0 (← times c0 m0)
  let consistency0 ← times (← times (← times (← times m0 m1) m2) m3) (← plus m0 m1)
  let consistency1 ← times (← times (← scalar x) a1) (← pow m0 3)
  let consistency2 ← pow (← difference m2 (← one)) 6
  let consistency3 ← plus (← times square square) square
  let transition0 ← difference n0 (← times (← times (← times (← times m0 m1) m2) m3) m0)
  let transition1 ← difference b0 (← times (← times a0 c1) (← pow (← plus m0 n1) 3))
  let transition2 ← difference (← difference b1 a1) (← times c2 n3)
  let transition3 ← times n2 square
  let terminal0 ← difference (← times (← pow m3 4) c2) a1
  let terminal1 ← difference (← times square m3) (← scalar x)
  return {
    initial := [initial0, initial1, initial2]
    consistency := [consistency0, consistency1, consistency2, consistency3]
    transition := [transition0, transition1, transition2, transition3]
    terminal := [terminal0, terminal1] }

end ConstraintSystem

end AirCompiler
