/-
  WasmPack.CommandLine.Options

  The arguments of the command line.  A value is looked at only when the next
  argument has been recognised, so a fault of that one comes first if it is not
  known at all.
-/
import WasmPack.Text.Segments

namespace WasmPack.CommandLine

/-! ## Arguments -/

/-- An argument with a value. -/
inductive Setting where
  | output
  | description
  | ns
  | input
deriving DecidableEq, Inhabited

/-- Whether the value is a path, which must not be empty. -/
def Setting.isPath : Setting → Bool
  | output | input => true
  | description | ns => false

/-- An argument that is there or not. -/
inductive Flag where
  | dump
  | noLibrary
deriving DecidableEq, Inhabited

/-- What a name on the command line stands for. -/
inductive Meaning where
  | setting (setting : Setting)
  | flag (flag : Flag)
  | help
  | version
deriving DecidableEq, Inhabited

/-- What a long name stands for. -/
def longName? : String → Option Meaning
  | "output" => some (.setting .output)
  | "description" => some (.setting .description)
  | "namespace" => some (.setting .ns)
  | "dump" => some (.flag .dump)
  | "no-runtime" => some (.flag .noLibrary)
  | "help" => some .help
  | "version" => some .version
  | _ => none

/-- What a short name stands for. -/
def shortName? : Char → Option Meaning
  | 'o' => some (.setting .output)
  | 'd' => some (.setting .description)
  | 'n' => some (.setting .ns)
  | 'h' => some .help
  | 'V' => some .version
  | _ => none

/-- Why there are no options. -/
inductive UsageError where
  | help
  | version
  | unknownArgument (argument : String)
  /-- A value that is missing, or empty where it must not be. -/
  | invalidValue (setting : Setting)
  /-- An argument that is given twice. -/
  | repeated
  /-- A value where none belongs. -/
  | needlessValue (flag : String)
  | missingInput
deriving DecidableEq, Inhabited

/-- The name of a setting in messages. -/
def Setting.name : Setting → String
  | output => "--output"
  | description => "--description"
  | ns => "--namespace"
  | input => "the input"

/-- What the arguments are. -/
def usage : String :=
  "Compile a WebAssembly module into a Minecraft data pack\n\n" ++
    "Usage: masm [OPTIONS] <INPUT>\n\n" ++
    "Arguments:\n" ++
    "  <INPUT>  Input .wasm file, or - for stdin\n\n" ++
    "Options:\n" ++
    "  -o, --output <OUTPUT>            Directory the data pack is written to [default: out]\n" ++
    "  -d, --description <DESCRIPTION>  Description stored in pack.mcmeta\n" ++
    "  -n, --namespace <NAMESPACE>      Namespace of the compiled module\n" ++
    "      --dump                       Print the decoded module as JSON to stderr\n" ++
    "      --no-runtime                 Do not write the runtime library into the pack\n" ++
    "  -h, --help                       Print help\n" ++
    "  -V, --version                    Print version"

/-- The name and the version of the command. -/
def versionText : String := "masm 0.1.1"

/-- The error in words. -/
def UsageError.message : UsageError → String
  | help => usage
  | version => versionText
  | unknownArgument a => "unexpected argument " ++ a
  | invalidValue s => "a value is required for " ++ s.name
  | repeated => "an argument cannot be used multiple times"
  | needlessValue flag => "unexpected value for --" ++ flag
  | missingInput => "the input is missing"

/-! ## Reading arguments -/

/-- What has been read of the arguments. -/
structure Given where
  settings : List (Setting × String) := []
  flags : List Flag := []
  /-- The setting whose value has not been looked at, with the value if there is one already. -/
  pending : Option (Setting × Option String) := none
deriving DecidableEq, Inhabited

namespace Given

/-- The value of a setting. -/
def value? (g : Given) (s : Setting) : Option String := g.settings.lookup s

/-- Look at a value and keep it. -/
def keep (g : Given) (s : Setting) (value : Option String) : Except UsageError Given :=
  match value with
  | none => throw (.invalidValue s)
  | some v =>
    if (g.value? s).isSome then throw .repeated
    else if s.isPath && v.isEmpty then throw (.invalidValue s)
    else return { g with settings := g.settings ++ [(s, v)] }

/-- Look at the value that has been waiting. -/
def settle (g : Given) : Except UsageError Given :=
  match g.pending with
  | none => return g
  | some (s, value) => { g with pending := none }.keep s value

/-- Take a setting whose value may stand in the same argument. -/
def takeSetting (g : Given) (s : Setting) (attached : Option String) : Except UsageError Given := do
  let g ← g.settle
  match attached with
  | some value => g.keep s (some value)
  | none => return { g with pending := some (s, none) }

/-- Take a flag. -/
def takeFlag (g : Given) (f : Flag) : Except UsageError Given := do
  let g ← g.settle
  if g.flags.contains f then throw .repeated
  else return { g with flags := g.flags ++ [f] }

/-- Take something by its name, with the value that stands in the same argument. -/
def takeMeaning (g : Given) (meaning : Meaning) (attached : Option String) :
    Except UsageError Given := do
  match meaning with
  | .setting s => g.takeSetting s attached
  | .flag f => g.takeFlag f
  | .help => discard g.settle; throw .help
  | .version => discard g.settle; throw .version

/-- Take an argument that begins with two dashes, without them. -/
def takeLong (g : Given) (argument : String) (chars : List Char) : Except UsageError Given :=
  let (name, attached) := match Text.cutFirst? '=' chars with
    | some (name, value) => (String.ofList name, some (String.ofList value))
    | none => (String.ofList chars, none)
  -- A fault of this argument itself comes before one of the value that has been waiting.
  match longName? name, attached with
  | none, _ => throw (.unknownArgument argument)
  | some (.setting s), attached => g.takeSetting s attached
  | some _, some _ => throw (.needlessValue name)
  | some meaning, none => g.takeMeaning meaning none

/-- The value that stands behind a short name, with or without a sign between them. -/
def attachedTo : List Char → Option String
  | [] => none
  | '=' :: rest => some (String.ofList rest)
  | rest => some (String.ofList rest)

/-- Take an argument that begins with a dash, by its name and what follows it. -/
def takeShort (g : Given) (argument : String) (name : Char) (rest : List Char) :
    Except UsageError Given :=
  match shortName? name with
  | none => throw (.unknownArgument argument)
  | some meaning => g.takeMeaning meaning (attachedTo rest)

/-- Take an argument that stands by itself: the input, and nothing more. -/
def takePlain (g : Given) (argument : String) : Except UsageError Given := do
  let isInput := fun (entry : Setting × Option String) => entry.1 = .input
  if (g.value? .input).isSome || g.pending.any isInput then throw (.unknownArgument argument)
  else
    let g ← g.settle
    return { g with pending := some (.input, some argument) }

/-- Take an argument: a name, the value that a setting waits for, or the input. -/
def take (g : Given) (argument : String) : Except UsageError Given :=
  match argument.toList with
  | '-' :: '-' :: chars => g.takeLong argument chars
  | '-' :: name :: rest => g.takeShort argument name rest
  | _ =>
    match g.pending with
    -- The setting in front waits for exactly one value.
    | some (s, none) => return { g with pending := some (s, some argument) }
    | _ => g.takePlain argument

/-- Take all arguments.  Behind two dashes alone there are no names. -/
def takeAll (g : Given) : List String → Except UsageError Given
  | [] => g.settle
  | argument :: rest => do
    if argument = "--" then
      -- A setting that still waits for its value gets none of what follows.
      let g ← rest.foldlM takePlain g
      g.settle
    else
      let g ← g.take argument
      g.takeAll rest

end Given

/-! ## Options -/

/-- What the user wants. -/
structure Options where
  output : String := "out"
  description : String := "masm data pack"
  /-- The namespace, if it is not to be made from the name of the input. -/
  ns : Option String := none
  dump : Bool := false
  noLibrary : Bool := false
  input : String
deriving DecidableEq, Inhabited

/-- The options that arguments give. -/
def Options.parse (arguments : List String) : Except UsageError Options := do
  let g ← Given.takeAll {} arguments
  match g.value? .input with
  | none => throw .missingInput
  | some input =>
    return {
      output := (g.value? .output).getD "out"
      description := (g.value? .description).getD "masm data pack"
      ns := g.value? .ns
      dump := g.flags.contains .dump
      noLibrary := g.flags.contains .noLibrary
      input }

end WasmPack.CommandLine
