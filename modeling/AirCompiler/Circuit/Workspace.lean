import AirCompiler.Circuit.Build

/-!
# Workspaces

A workspace holds several arenas. Circuits are named by handles, and an operation takes place in the
arena of the first operand that is a circuit; an operand of another arena is refused there.
-/

namespace AirCompiler

/-- Arenas, each at the place that is its name. -/
structure Workspace where
  arenas : Array Arena

/-- Construction in a workspace. An error keeps the workspace as it was left. -/
abbrev Construct := EStateM BuildError Workspace

namespace Workspace

def single : Workspace := ⟨#[.empty 0]⟩

def ofArena (a : Arena) : Workspace := ⟨#[a]⟩

def arena (w : Workspace) (name : Nat) : Arena := w.arenas.getD name (.empty name)

/-- The workspace with arenas up to a name; new ones are empty. -/
def extend (w : Workspace) (name : Nat) : Workspace :=
  ⟨w.arenas ++ (((List.range (name + 1)).drop w.arenas.size).map Arena.empty).toArray⟩

/-- Puts an arena in its place. -/
def set (w : Workspace) (a : Arena) : Workspace := ⟨w.arenas.setIfInBounds a.name a⟩

def circuit? (w : Workspace) (h : Handle) : Option Circuit := (w.arena h.owner).circuit? h.id

/-- Runs a computation in one arena. -/
def within {ε α : Type} (name : Nat) (x : EStateM ε Arena α) : EStateM ε Workspace α := fun w =>
  let a := w.arena name
  -- the place is emptied first, so that the arena is not copied
  let arenas := w.arenas.setIfInBounds name (.empty name)
  match x a with
  | .ok v a => .ok v ⟨arenas.setIfInBounds name a⟩
  | .error e a => .error e ⟨arenas.setIfInBounds name a⟩

/-- Builds a node in one arena. -/
def build (name : Nat) (x : Build Nat) : Construct Handle := do
  let i ← within name x
  return ⟨name, i⟩

end Workspace

namespace Construct

/-- The arena in which an operation on two operands takes place. -/
def owner : Operand → Operand → Nat
  | .circuit h, _ => h.owner
  | .value _, .circuit h => h.owner
  | .value _, .value _ => 0

/-- The sum or product of two operands. -/
def binop (op : Op) (x y : Operand) : Construct Handle :=
  Workspace.build (owner x y) (.binop op x y)

/-- The difference of two operands. -/
def sub (x y : Operand) : Construct Handle := Workspace.build (owner x y) (.sub x y)

/-- The negative of a circuit. -/
def neg (h : Handle) : Construct Handle := Workspace.build h.owner (.neg h.id)

/-- The power of a circuit. -/
def pow (h : Handle) (e : Int) : Construct Handle := Workspace.build h.owner (.pow h.id e)

end Construct

end AirCompiler
