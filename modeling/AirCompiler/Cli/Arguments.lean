import AirCompiler.Text.Integer

/-!
# Command line arguments

A command and four options, in any order. A long option may be shortened to a unique beginning, and
takes its value after `=` or from the next argument. Short options may be joined, the last of them
with its value attached. Of a repeated option the last use counts. After `--` every argument stands
for itself. An option that has `--` attached to it is left without a value.
-/

namespace AirCompiler.Cli

/-- What the program is asked to do. -/
inductive Command where
  | generate
  | inspect
  deriving DecidableEq

def Command.ofName? : String → Option Command
  | "generate" => some .generate
  | "inspect" => some .inspect
  | _ => none

/-- An option. -/
inductive Flag where
  | help
  | constraints
  | output
  | targetDegree
  | verbose
  deriving DecidableEq

def Flag.takesValue : Flag → Bool
  | .constraints | .output | .targetDegree => true
  | .help | .verbose => false

/-- The long names of options. -/
def longFlags : List (String × Flag) :=
  [("--help", .help), ("--constraints", .constraints), ("--output", .output),
    ("--target-degree", .targetDegree), ("--verbose", .verbose)]

/-- The letters of options. -/
def shortFlags : List (Char × Flag) :=
  [('h', .help), ('c', .constraints), ('o', .output), ('v', .verbose)]

/-- Why the arguments end the program: help was asked for, or they are not understood. -/
inductive Usage where
  | help
  | invalid
  deriving DecidableEq

def Usage.exitCode : Usage → Nat
  | .help => 0
  | .invalid => 2

/-- The use of an option, by its long name or by its letter, with what is attached to it. -/
structure FlagUse where
  flag : Flag
  long : Bool
  attached : Option (List Char)

/-- An argument by its kind. -/
inductive Token where
  /-- The argument `--`. -/
  | separator
  /-- A command or a value. -/
  | plain (s : String)
  | flag (use : FlagUse)
  /-- An option that does not exist. -/
  | unknown

/-- A text up to the first `=`, and the value after it. -/
def splitEquals (s : List Char) : List Char × Option (List Char) :=
  match s.dropWhile (· != '=') with
  | [] => (s, none)
  | _ :: value => (s.takeWhile (· != '='), some value)

/-- The option of an argument that begins with two dashes. -/
def longToken (s : List Char) : Except Usage (Option FlagUse) :=
  let (name, attached) := splitEquals s
  let exact := longFlags.filter fun (full, _) => full.toList == name
  let matching := if exact.isEmpty then longFlags.filter fun (full, _) =>
    name.isPrefixOf full.toList else exact
  match matching with
  | [] => .ok none
  | [(_, flag)] => .ok (some ⟨flag, true, attached⟩)
  | _ => .error .invalid

/-- What is attached to an option's letter: a value or more letters, with or without `=` before
them. -/
def attachedTo : List Char → Option (List Char)
  | [] => none
  | '=' :: value => some value
  | rest => some rest

/-- The option of an argument that begins with one dash. -/
def shortToken (letter : Char) (rest : List Char) : Option FlagUse :=
  (shortFlags.lookup letter).map fun flag => ⟨flag, false, attachedTo rest⟩

/-- An argument that names no option: a negative number or a text with a blank stands for itself. -/
def unnamedToken (s : String) : Token :=
  if Text.isNegativeNumber s || s.toList.contains ' ' then .plain s else .unknown

/-- The kind of an argument. -/
def token (s : String) : Except Usage Token :=
  match s.toList with
  | '-' :: '-' :: rest => do
    match ← longToken ('-' :: '-' :: rest) with
    | some use => return .flag use
    | none => return unnamedToken s
  | '-' :: letter :: rest =>
    match shortToken letter rest with
    | some use => .ok (.flag use)
    | none => .ok (unnamedToken s)
  | _ => .ok (.plain s)

/-- The kinds of all arguments. -/
def tokens : List String → Except Usage (List Token)
  | [] => .ok []
  | "--" :: rest => .ok (.separator :: rest.map .plain)
  | s :: rest => do
    let t ← token s
    let ts ← tokens rest
    return t :: ts

/-- The settings that arguments make. A setting is missing if its option was left without a
value. -/
structure Arguments where
  command : Option Command
  constraints : Option String
  output : Option String
  targetDegree : Option Int
  verbose : Bool

/-- The settings without arguments. -/
def Arguments.default : Arguments :=
  ⟨none, some "airgen.airs:test_constraints", some "./generated", some 4, false⟩

/-- An option to be applied, with the text given to it if it takes a value. -/
abbrev Action := Flag × String

/-- The value of an option from the text given to it. The separator is no value. -/
def valueOf (given : String) : Option String := if given = "--" then none else some given

/-- Applies one option. -/
def Arguments.apply (a : Arguments) (action : Action) : Except Usage Arguments :=
  match action with
  | (.help, _) => .error .help
  | (.constraints, given) => .ok { a with constraints := valueOf given }
  | (.output, given) => .ok { a with output := valueOf given }
  | (.verbose, _) => .ok { a with verbose := true }
  | (.targetDegree, given) =>
    match valueOf given with
    | none => .ok { a with targetDegree := none }
    | some text =>
      match Text.integer? text with
      | some n => .ok { a with targetDegree := some n }
      | none => .error .invalid

/-- What the use of an option comes down to: options to apply, and how many of the following
arguments were taken as a value. -/
structure Expansion where
  actions : List Action
  taken : Nat

/-- An option with nothing attached to it: its value is the next argument. -/
def Flag.expand (flag : Flag) (next : List Token) : Except Usage Expansion :=
  if flag.takesValue then
    match next with
    | .plain value :: _ => .ok ⟨[(flag, value)], 1⟩
    | _ => .error .invalid
  else .ok ⟨[(flag, "")], 0⟩

/-- An option with a text attached to its letter. The text is the value of an option that takes one;
behind any other option it is more letters, each of which names an option. -/
def Flag.expandWith (next : List Token) (flag : Flag) (attached : List Char) :
    Except Usage Expansion :=
  match attached with
  | [] => flag.expand next
  | letter :: rest =>
    if flag.takesValue then .ok ⟨[(flag, String.ofList attached)], 0⟩
    else
      match shortFlags.lookup letter with
      | none => .error .invalid
      | some following => do
        let e ← expandWith next following rest
        return { e with actions := (flag, "") :: e.actions }

/-- What the use of an option comes down to, given the arguments after it. -/
def FlagUse.expand (use : FlagUse) (next : List Token) : Except Usage Expansion :=
  match use.attached with
  | none => use.flag.expand next
  | some attached =>
    if use.flag.takesValue then .ok ⟨[(use.flag, String.ofList attached)], 0⟩
    else if use.long || attached.isEmpty then .error .invalid
    else use.flag.expandWith next attached

/-- The settings made so far, and whether arguments were left over. -/
structure Parsed where
  arguments : Arguments
  extra : Bool

/-- Takes a plain argument as the command. -/
def Parsed.withCommand (p : Parsed) (s : String) : Except Usage Parsed :=
  match Command.ofName? s with
  | some command => .ok { p with arguments := { p.arguments with command := some command } }
  | none => .error .invalid

/-- Works through the arguments. The first plain one is the command, also with the separator before
or after it. -/
def Parsed.step (p : Parsed) (ts : List Token) : Except Usage Parsed :=
  match ts with
  | [] => .ok p
  | .flag use :: rest => do
    let e ← use.expand rest
    let arguments ← e.actions.foldlM Arguments.apply p.arguments
    Parsed.step { p with arguments } (rest.drop e.taken)
  | .unknown :: rest => Parsed.step { p with extra := true } rest
  | .plain s :: rest =>
    if p.arguments.command.isSome then Parsed.step { p with extra := true } rest
    else do
      let p ← p.withCommand s
      match rest with
      | .separator :: rest => Parsed.step p rest
      | rest => Parsed.step p rest
  | .separator :: rest =>
    if p.arguments.command.isSome then Parsed.step { p with extra := true } rest
    else
      match rest with
      | .plain s :: rest => do
        let p ← p.withCommand s
        Parsed.step p rest
      | rest => Parsed.step { p with extra := true } rest
termination_by ts.length
decreasing_by all_goals simp only [List.length_cons, List.length_drop]; omega

/-- The settings that a command line makes. A command is required, and nothing may be left over. -/
def parse (argv : List String) : Except Usage (Command × Arguments) := do
  let ts ← tokens argv
  let p ← Parsed.step ⟨.default, false⟩ ts
  match p.arguments.command with
  | some command => if p.extra then throw .invalid else return (command, p.arguments)
  | none => throw .invalid

end AirCompiler.Cli
