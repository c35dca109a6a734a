import AirCompiler.Cli.Run

/-!
# The program

Runs the command line: prints, logs to the error stream and writes the generated files.
-/

open AirCompiler.Cli

def directoryText (p : Path) : String := ({ p with parts := p.parts.dropLast } : Path).text

/-- Runs the command line that the program was started with. -/
def main (argv : List String) : IO UInt32 := do
  match run argv with
  | .usage u =>
    IO.eprintln <| "usage: generate | inspect [--constraints MODULE:FUNCTION] [--output DIR] " ++
      "[--target-degree N] [--verbose]"
    return u.exitCode.toUInt32
  | .unresolved e =>
    IO.eprintln (if e matches .unknownModule then "no such module" else e.message)
    return 1
  | .missing m =>
    IO.eprintln m.message
    return 1
  | .finished o =>
    IO.print o.output
    for (path, text) in o.files do
      IO.FS.createDirAll (directoryText path)
      IO.FS.writeFile path.text text
    IO.eprint o.logText
    return o.exitCode.toUInt32
