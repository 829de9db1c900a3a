import FuzzLang.Settings

/-!
# Command line arguments

Arguments are taken from left to right: options with a value, flags, and one source file. Asking for
help or the version ends the reading at once; what is missing or does not go together shows only at
the end.
-/

namespace FuzzLang.CommandLine

/-- Options that take a value. -/
inductive ValueOption where
  | program
  | outDir
  | indent
  | compiler
  deriving DecidableEq, Repr

/-- Options that take none. -/
inductive Flag where
  | stdout
  | build
  | run
  | view
  deriving DecidableEq, Repr

/-- What an option can ask for. -/
inductive Choice where
  | value (option : ValueOption)
  | flag (flag : Flag)
  | help
  | version
  deriving DecidableEq, Repr

/-- The option of a long name. -/
def long? : String → Option Choice
  | "program" => some (.value .program)
  | "out-dir" => some (.value .outDir)
  | "indent" => some (.value .indent)
  | "rustc" => some (.value .compiler)
  | "stdout" => some (.flag .stdout)
  | "build" => some (.flag .build)
  | "run" => some (.flag .run)
  | "view" => some (.flag .view)
  | "help" => some .help
  | "version" => some .version
  | _ => none

/-- A whole number below `2 ^ 64`, with or without a plus. -/
def width? (s : String) : Option Nat :=
  let digits := match s.toList with
    | '+' :: ds => ds
    | ds => ds
  if digits ≠ [] ∧ digits.all Char.isDigit then
    let n := digitsValue digits
    if n < UInt64.size then some n else none
  else none

/-- What the arguments so far ask for. -/
structure Request where
  file? : Option String := none
  program? : Option String := none
  outDir? : Option String := none
  indent? : Option Nat := none
  compiler? : Option String := none
  flags : List Flag := []
  deriving DecidableEq, Repr

/-- What a command line comes to. -/
inductive Invocation where
  | run (settings : Settings)
  | help
  | version
  /-- The arguments make no sense. -/
  | misuse
  deriving DecidableEq, Repr

namespace Request

/-- Take the source file; there is only one. -/
def setFile (r : Request) (s : String) : Option Request :=
  if r.file?.isSome ∨ s.isEmpty then none else some { r with file? := some s }

/-- Take the value of an option; it is given only once. -/
def setValue (r : Request) (o : ValueOption) (s : String) : Option Request :=
  match o with
  | .program => if r.program?.isSome then none else some { r with program? := some s }
  | .outDir =>
    if r.outDir?.isSome ∨ s.isEmpty then none else some { r with outDir? := some s }
  | .indent =>
    match r.indent?, width? s with
    | none, some n => some { r with indent? := some n }
    | _, _ => none
  | .compiler =>
    if r.compiler?.isSome ∨ s.isEmpty then none else some { r with compiler? := some s }

/-- Take a flag; it is given only once. -/
def setFlag (r : Request) (f : Flag) : Option Request :=
  if f ∈ r.flags then none else some { r with flags := f :: r.flags }

/-- The action of the flags; two do not go together. -/
def action? (r : Request) : Option Action :=
  match r.flags with
  | [] => some .write
  | [.stdout] => some .print
  | [.build] => some .build
  | [.run] => some .run
  | [.view] => some .view
  | _ => none

/-- The settings that a request asks for, with the compiler that the environment names. -/
def finish (r : Request) (environment? : Option String) : Invocation :=
  let compiler? := match r.compiler?, environment? with
    | some c, _ => some c
    | none, some c => if c.isEmpty then none else some c
    | none, none => some "rustc"
  match r.file?, r.action?, compiler? with
  | some file, some action, some compiler =>
    let base := Settings.ofInput file
    .run {
      base with
      program := r.program?.getD base.program
      outDir := r.outDir?.getD base.outDir
      compiler := compiler
      action := action
      indent := String.ofList (List.replicate (r.indent?.getD 4) ' ') }
  | _, _, _ => .misuse

end Request

/-- Whether an argument is an option rather than a value: a dash alone is a value. -/
def isOption (arg : String) : Bool :=
  match arg.toList with
  | '-' :: _ :: _ => true
  | _ => false

/-- A long option and the value joined to it by an equals sign. -/
def splitLong (cs : List Char) : String × Option String :=
  let name := cs.takeWhile (· != '=')
  match cs.drop name.length with
  | _ :: value => (String.ofList name, some (String.ofList value))
  | [] => (String.ofList name, none)

/-- Read arguments. After `--` all are files. -/
def readArgs (environment? : Option String) (r : Request) (filesOnly : Bool) :
    List String → Invocation
  | [] => r.finish environment?
  | arg :: args =>
    let goOn (next? : Option Request) : Invocation :=
      match next? with
      | some next => readArgs environment? next filesOnly args
      | none => .misuse
    if filesOnly || !isOption arg then goOn (r.setFile arg)
    else
      match arg.toList with
      | ['-', '-'] => readArgs environment? r true args
      | '-' :: '-' :: cs =>
        let (name, value?) := splitLong cs
        match long? name, value? with
        | some .help, none => .help
        | some .version, none => .version
        | some (.flag f), none => goOn (r.setFlag f)
        | some (.value o), some value => goOn (r.setValue o value)
        | some (.value o), none =>
          match args with
          | value :: rest =>
            if isOption value then .misuse
            else
              match r.setValue o value with
              | some next => readArgs environment? next filesOnly rest
              | none => .misuse
          | [] => .misuse
        | _, _ => .misuse
      | '-' :: 'h' :: _ => .help
      | '-' :: 'V' :: _ => .version
      | _ => .misuse

/-- What a command line asks for, given the compiler that the environment names. -/
def parse (environment? : Option String) (args : List String) : Invocation :=
  readArgs environment? {} false args

def versionText : String := "fuzzc 0.1.0\n"

/-- The text of the help, which shows the compiler that the environment names. -/
def helpText (environment? : Option String) : String :=
  "Compile fuzz-lang source into Rust\n\n" ++
  "Usage: fuzzc [OPTIONS] <FILE>\n\n" ++
  "Arguments:\n" ++
  "  <FILE>  fuzz-lang source file\n\n" ++
  "Options:\n" ++
  "      --program <PROGRAM>  Name of the emitted file and binary (defaults to the input's " ++
    "file stem)\n" ++
  "      --out-dir <OUT_DIR>  Directory for the emitted .rs file and built binary " ++
    "[default: __transpiled__]\n" ++
  "      --indent <INDENT>    Spaces per indentation level in the generated code [default: 4]\n" ++
  "      --stdout             Print the generated Rust to stdout instead of writing a file\n" ++
  "      --build              Compile the generated file with rustc\n" ++
  "      --run                Compile and run the generated program\n" ++
  "      --view               Inspect the compilation in the terminal viewer\n" ++
  "      --rustc <RUSTC>      rustc executable [env: RUSTC=" ++ environment?.getD "" ++
    "] [default: rustc]\n" ++
  "  -h, --help               Print help\n" ++
  "  -V, --version            Print version\n"

end FuzzLang.CommandLine
