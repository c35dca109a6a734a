import AirCompiler.Field.Base

/-!
# Memory regions

The parts of memory that generated assembly may address, and addresses relative to them.
-/

namespace AirCompiler

/-- A part of memory that generated code addresses. -/
inductive Region where
  /-- The scratch page. -/
  | page
  | currentMain
  | currentAux
  | nextMain
  | nextAux
  | challenges
  deriving DecidableEq

namespace Region

/-- The regions in the order in which they are laid out and checked. -/
def all : List Region := [.page, .currentMain, .currentAux, .nextMain, .nextAux, .challenges]

/-- The name of a region in code and texts. -/
def name : Region → String
  | .page => "free_mem_page"
  | .currentMain => "curr_main_row"
  | .currentAux => "curr_aux_row"
  | .nextMain => "next_main_row"
  | .nextAux => "next_aux_row"
  | .challenges => "challenges"

def ofName? (name : String) : Option Region := all.find? fun r => r.name == name

end Region

/-- A word address relative to the start of a region. -/
structure Address where
  region : Region
  offset : Int
  deriving DecidableEq

namespace Address

def text (a : Address) : String := s!"{a.region.name}+{a.offset}"

/-- Region and offset in full, as errors name them. -/
def description (a : Address) : String :=
  s!"Address(region=<IOList.{a.region.name.toUpper}: '{a.region.name}'>, offset={a.offset})"

end Address

/-- The words of a region: where they start and how many they are. -/
structure Extent where
  start : Int
  size : Int
  deriving DecidableEq

namespace Extent

/-- The first address after the extent. -/
def stop (e : Extent) : Int := e.start + e.size

def contains (e : Extent) (address : Int) : Bool := e.start ≤ address && address < e.stop

/-- Whether two extents have no word in common. -/
def disjoint (e f : Extent) : Bool :=
  e.size == 0 || f.size == 0 || e.stop ≤ f.start || f.stop ≤ e.start

/-- Whether the extent goes beyond the end of the address space. -/
def wraps (e : Extent) : Bool := (prime : Int) < e.stop

end Extent

end AirCompiler
