/-!
# Parameters

The target degree and the sizes of the scratch page that generated assembly may use. The page begins
with the shared nodes and ends with the output array. All sizes are in words; an extension element
takes three of them.
-/

namespace AirCompiler

/-- The number of words of an extension element. -/
def elementWords : Int := 3

/-- Why parameters are refused. -/
inductive ParamsError where
  | targetDegree (target : Int)
  /-- The output array does not fit into the page. -/
  | reservation (reserved page : Int)
  /-- The output array would not begin at a whole element. -/
  | alignment (offset : Int)
  deriving DecidableEq

/-- The text that reports refused parameters. -/
def ParamsError.message : ParamsError → String
  | .targetDegree target => s!"Target degree must be > 1, got {target}"
  | .reservation reserved page =>
    s!"Output array reservation must be smaller than the memory page, got {reserved} >= {page}"
  | .alignment offset => s!"Output array offset {offset} is not a multiple of 3"

/-- The parameters of one compilation. -/
structure Params where
  /-- The largest degree of a constraint after lowering. -/
  target : Int
  /-- The words of the scratch page. -/
  page : Int
  /-- The words at the end of the page that are kept for the output array. -/
  reserved : Int
  /-- The words at the start of the page that hold row pointers, where rows are addressed through
  pointers. -/
  pointers : Int
  two_le_target : 2 ≤ target
  reserved_lt_page : reserved < page
  offset_aligned : (page - reserved) % elementWords = 0

namespace Params

/-- Parameters from their numbers, checked in order. -/
def check (target page reserved pointers : Int) : Except ParamsError Params :=
  if ht : 2 ≤ target then
    if hr : reserved < page then
      if ho : (page - reserved) % elementWords =
        0 then .ok ⟨target, page, reserved, pointers, ht, hr, ho⟩
      else .error (.alignment (page - reserved))
    else .error (.reservation reserved page)
  else .error (.targetDegree target)

/-- A page of `2 ^ 32` words. -/
def standard : Params := ⟨4, 4294967296, 65536, 4, by decide, by decide, by decide⟩

/-- A page of `2 ^ 16` words. -/
def small : Params := ⟨4, 65536, 1024, 4, by decide, by decide, by decide⟩

/-- The words before the output array. -/
def outputOffsetWords (p : Params) : Int := p.page - p.reserved

/-- The elements before the output array. -/
def outputOffset (p : Params) : Int := p.outputOffsetWords.fdiv elementWords

/-- The number of constraints that the output array holds. -/
def capacity (p : Params) : Int := (p.reserved - p.pointers).fdiv elementWords

end Params

end AirCompiler
