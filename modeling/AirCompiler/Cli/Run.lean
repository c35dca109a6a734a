import AirCompiler.Artifacts
import AirCompiler.Cli.Arguments
import AirCompiler.Cli.Path
import AirCompiler.Cli.Registry

/-!
# The command line

`generate` writes the generated modules to a directory; `inspect` prints a table with one line for
each bucket.
-/

namespace AirCompiler.Cli

/-- What a finished command leaves: its exit code, what it printed and logged, and the files that it
wrote, in order. -/
structure Outcome where
  exitCode : Nat
  output : String
  log : List LogLine
  files : List (Path × String)

/-- A setting that a command needs, and whose option was left without a value. -/
inductive Missing where
  | constraints
  | output
  | targetDegree
  deriving DecidableEq

/-- The text that reports a missing setting, by the first thing that is tried with it. -/
def Missing.message : Missing → String
  | .constraints => "'list' object has no attribute 'partition'"
  | .output => "'list' object has no attribute 'mkdir'"
  | .targetDegree => "'<' not supported between instances of 'list' and 'int'"

/-- How a command line ends. -/
inductive Ending where
  | usage (u : Usage)
  /-- The named module cannot be looked into. -/
  | unresolved (e : SpecError)
  | missing (m : Missing)
  | finished (o : Outcome)

/-- A text with blanks after it up to a width. -/
def padRight (width : Nat) (s : String) : String := s ++ "".pushn ' ' (width - s.length)

/-- A text with blanks before it up to a width. -/
def padLeft (width : Nat) (s : String) : String := "".pushn ' ' (width - s.length) ++ s

/-- One line of the table: a name and five columns. -/
def tableLine (name count shared degree static dynamic : String) : String :=
  " ".intercalate
    [padRight 12 name, padLeft 11 count, padLeft 7 shared, padLeft 7 degree,
      padLeft 7 static, padLeft 7 dynamic]

def bucketLine (x : Artifacts) (role : Role) : String :=
  let b := x.evaluation.get role
  let degree : Int := b.degrees.foldl (fun d (n : Nat) => max d n) (-1)
  tableLine role.name (toString b.count) (toString b.bindings.length) (toString degree)
    (toString (x.static.buckets.get role).size) (toString (x.dynamic.buckets.get role).size)

/-- The printed table. -/
def inspection (x : Artifacts) (targetDegree : Int) : String :=
  let lines :=
    [s!"Target degree: {targetDegree}",
      s!"Main columns:  {x.givenShape.mainColumns} -> {x.system.shape.mainColumns}",
      s!"Aux columns:   {x.givenShape.auxColumns} -> {x.system.shape.auxColumns}",
      s!"Challenges:    {x.system.shape.challenges}",
      "",
      tableLine "bucket" "constraints" "shared" "max deg" "static" "dynamic"] ++
    Role.all.map (bucketLine x)
  String.join (lines.map fun line => line ++ "\n")

/-- A command that ends with an error. -/
def failure (log : List LogLine) (message : String) : Outcome :=
  ⟨1, "", log ++ [⟨.error, message⟩], []⟩

/-- The artifacts of a system for a target degree, or the message of what went wrong. -/
def artifacts (system : ConstraintSystem) (targetDegree : Int) : Except String Artifacts := do
  let p := Params.standard
  let params ← (Params.check targetDegree p.page p.reserved p.pointers).mapError ParamsError.message
  match generate params system with
  | .ok x _ => return x
  | .error e _ => throw e.message

/-- Writes the generated modules to a directory. No directory can have a null character in its
name. -/
def write (x : Artifacts) (output : String) : Outcome :=
  if output.toList.contains '\x00' then failure x.log "embedded null byte"
  else
    match x.files with
    | .error e => failure x.log e.message
    | .ok files =>
      let written := files.map fun (name, text) => ((Path.ofString output).file name, text)
      ⟨0, "", x.log ++ written.map (fun (path, _) => ⟨.info, s!"wrote {path.text}"⟩), written⟩

/-- Runs a command on a system. A missing setting counts only when the command comes to it. -/
def runOn (command : Command) (a : Arguments) (system : ConstraintSystem) :
    Except Missing Outcome := do
  let some targetDegree := a.targetDegree | throw .targetDegree
  match artifacts system targetDegree with
  | .error message => return failure [] message
  | .ok x =>
    match command with
    | .inspect => return ⟨0, inspection x targetDegree, x.log, []⟩
    | .generate =>
      let some output := a.output | throw .output
      return write x output

/-- The log lines that are shown: details only if they are asked for. -/
def shown (verbose : Bool) (log : List LogLine) : List LogLine :=
  if verbose then log else log.filter fun line => line.level ≠ .debug

/-- Runs a command line. -/
def run (argv : List String) : Ending :=
  match parse argv with
  | .error u => .usage u
  | .ok (command, a) =>
    match a.constraints with
    | none => .missing .constraints
    | some spec =>
      match loadSystem spec with
      | .error e => if e.logged then .finished (failure [] e.message) else .unresolved e
      | .ok system =>
        match runOn command a system with
        | .error m => .missing m
        | .ok o => .finished { o with log := shown a.verbose o.log }

def Outcome.logText (o : Outcome) : String := String.join (o.log.map fun line => line.text ++ "\n")

end AirCompiler.Cli
