import AirCompiler.Memory.Params
import AirCompiler.Memory.Region
import AirCompiler.System.Role

/-!
# Memory layouts

Where the regions lie. A static layout places all six; a dynamic one places the scratch page and the
challenges, and the row pointers are passed on the stack when the code runs. A layout is integral if
its regions lie in the address space and are pairwise disjoint.
-/

namespace AirCompiler

/-- How rows are addressed: at fixed places, or through pointers. -/
inductive Addressing where
  | static
  | dynamic
  deriving DecidableEq

def Addressing.name : Addressing → String
  | .static => "static"
  | .dynamic => "dynamic"

def Addressing.layoutName : Addressing → String
  | .static => "StaticMemoryLayout"
  | .dynamic => "DynamicMemoryLayout"

/-- The places of regions. -/
inductive Layout where
  | static (page currentMain currentAux nextMain nextAux challenges : Int)
  | dynamic (page challenges : Int)
  deriving DecidableEq

/-- Why a layout is refused. -/
inductive LayoutError where
  | startsOutside (region : Region)
  | wraps (region : Region)
  | overlap (first second : Region)
  /-- The layout of the given mode places no such region. -/
  | missing (mode : Addressing) (region : Region)
  /-- Code of one mode was given a layout of the other. -/
  | mismatch (code layout : Addressing)
  deriving DecidableEq

/-- The text that reports a refused layout. -/
def LayoutError.message : LayoutError → String
  | .startsOutside r => s!"Region {r.name} starts outside the address space"
  | .wraps r => s!"Region {r.name} wraps around the address space"
  | .overlap r s => s!"Regions {r.name} and {s.name} overlap"
  | .missing mode r => s!"{mode.layoutName} has no region {r.name}"
  | .mismatch code layout => s!"{code.name} code needs a {code.layoutName}, got {layout.layoutName}"

def Region.words (shape : Shape) (params : Params) : Region → Int
  | .page => params.page
  | .challenges => shape.challenges * elementWords
  | .currentMain | .nextMain => shape.mainColumns * elementWords
  | .currentAux | .nextAux => shape.auxColumns * elementWords

namespace Layout

def mode : Layout → Addressing
  | .static .. => .static
  | .dynamic .. => .dynamic

/-- Where a region starts, if the layout places it. -/
def pointer? : Layout → Region → Option Int
  | .static page .., .page => some page
  | .static _ currentMain .., .currentMain => some currentMain
  | .static _ _ currentAux .., .currentAux => some currentAux
  | .static _ _ _ nextMain .., .nextMain => some nextMain
  | .static _ _ _ _ nextAux _, .nextAux => some nextAux
  | .static _ _ _ _ _ challenges, .challenges => some challenges
  | .dynamic page _, .page => some page
  | .dynamic _ challenges, .challenges => some challenges
  | .dynamic .., _ => none

/-- Where the challenges start; every layout places them. -/
def challengesPointer : Layout → Int
  | .static _ _ _ _ _ challenges | .dynamic _ challenges => challenges

/-- The regions that the layout places, with their words. -/
def extents (l : Layout) (shape : Shape) (params : Params) : List (Region × Extent) :=
  Region.all.filterMap fun r => (l.pointer? r).map fun start => (r, ⟨start, r.words shape params⟩)

/-- Checks that a region lies in the address space. -/
def checkExtent (r : Region) (e : Extent) : Except LayoutError Unit :=
  if ¬(0 ≤ e.start ∧ e.start < prime) then .error (.startsOutside r)
  else if e.wraps then .error (.wraps r)
  else .ok ()

/-- Checks that regions are pairwise disjoint, in order. -/
def checkDisjoint : List (Region × Extent) → Except LayoutError Unit
  | [] => .ok ()
  | (r, e) :: rest => do
    rest.forM fun (s, f) => if e.disjoint f then .ok () else .error (.overlap r s)
    checkDisjoint rest

def check (l : Layout) (shape : Shape) (params : Params) : Except LayoutError Unit := do
  let extents := l.extents shape params
  extents.forM fun (r, e) => checkExtent r e
  checkDisjoint extents

def isIntegral (l : Layout) (shape : Shape) (params : Params) : Bool := (l.check shape params).isOk

/-- The word that a relative address names. -/
def resolve (l : Layout) (a : Address) : Except LayoutError Int :=
  match l.pointer? a.region with
  | none => .error (.missing l.mode a.region)
  | some start => .ok ((start + a.offset) % prime)

end Layout

end AirCompiler
