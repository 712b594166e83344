/-!
# Command line options

The compiler takes one input, a file or a directory, and two options: the directory for its output,
`-o` or `--output`, and whether to show the code, `-d` or `--dump`. Short options may be run
together, and the last of them may carry its value with it. After `--` every argument is an input.
Everything is given at most once, and no value is empty.
-/

namespace JackCompiler

namespace CommandLine

/-- The options of a run, as far as they have been given. -/
structure Given where
  input : Option String := none
  output : Option String := none
  dump : Bool := false
  deriving DecidableEq, Repr

namespace Given

/-- Gives the input. -/
def setInput (g : Given) (value : String) : Option Given :=
  if g.input.isSome || value.isEmpty then none else some { g with input := some value }

/-- Gives the output directory. -/
def setOutput (g : Given) (value : String) : Option Given :=
  if g.output.isSome || value.isEmpty then none else some { g with output := some value }

/-- Asks for the code to be shown. -/
def setDump (g : Given) : Option Given :=
  if g.dump then none else some { g with dump := true }

/-- Gives the options of a run of short options. The answer also says whether the output directory
must follow as the next argument. -/
def setShort (g : Given) : List Char → Option (Given × Bool)
  | [] => some (g, false)
  | 'd' :: rest => g.setDump.bind fun g => g.setShort rest
  | ['o'] => some (g, true)
  | 'o' :: '=' :: value => (g.setOutput (String.ofList value)).map fun g => (g, false)
  | 'o' :: value => (g.setOutput (String.ofList value)).map fun g => (g, false)
  | _ => none

/-- Gives a long option, without its two dashes. The answer also says whether the output directory
must follow as the next argument. -/
def setLong (g : Given) (option : List Char) : Option (Given × Bool) :=
  let name := String.ofList (option.takeWhile (· != '='))
  match name, option.dropWhile (· != '=') with
  | "dump", [] => g.setDump.map fun g => (g, false)
  | "output", [] => some (g, true)
  | "output", _ :: value => (g.setOutput (String.ofList value)).map fun g => (g, false)
  | _, _ => none

end Given

/-- The forms of an argument. -/
inductive Argument
  | separator
  | long (option : List Char)
  | short (options : List Char)
  | plain

/-- The form of an argument. A dash alone is plain. -/
def Argument.ofString (s : String) : Argument :=
  match s.toList with
  | ['-', '-'] => .separator
  | '-' :: '-' :: option => .long option
  | ['-'] => .plain
  | '-' :: options => .short options
  | _ => .plain

/-- Gives the options of a list of arguments. `awaiting` says whether the next argument must be the
output directory. -/
def Given.arguments (g : Given) (awaiting : Bool) : List String → Option Given
  | [] => if awaiting then none else some g
  | arg :: rest =>
    match Argument.ofString arg, awaiting with
    | .plain, true => (g.setOutput arg).bind fun g => g.arguments false rest
    | _, true => none
    | .plain, false => (g.setInput arg).bind fun g => g.arguments false rest
    | .separator, false => rest.foldlM Given.setInput g
    | .long option, false => (g.setLong option).bind fun (g, awaiting) => g.arguments awaiting rest
    | .short options, false =>
      (g.setShort options).bind fun (g, awaiting) => g.arguments awaiting rest

/-- The options of a run. -/
structure Options where
  input : String
  output : Option String
  dump : Bool
  deriving DecidableEq, Repr

/-- The options that the arguments give, if they are in order. The input is the working directory
unless another is given. -/
def Options.ofArguments? (args : List String) : Option Options :=
  (Given.arguments {} false args).map fun g =>
    { input := g.input.getD ".", output := g.output, dump := g.dump }

end CommandLine

end JackCompiler
