import MiniPascal.Report

/-!
The command line: what the arguments ask for, and what the program answers.

Arguments are read from left to right, and the first that cannot be used, or that asks for the
version or for help, decides. Options may stand before and behind the contents, each at most once;
behind `--` there are only contents. `Command.respond` is a function of a way to read files, so that
it serves the real file system and any other.
-/

set_option autoImplicit false
set_option relaxedAutoImplicit false

namespace MiniPascal

inductive Mode where
  | run
  | check
  | regen
  deriving DecidableEq, Repr

def Mode.ofText? : String → Option Mode
  | "run" => some .run
  | "check" => some .check
  | "regen" => some .regen
  | _ => none

/-- What the program is asked to do with a text, or with the file of that name. -/
structure Job where
  fromFile : Bool
  mode : Mode
  limit : Nat
  contents : String
  deriving DecidableEq, Repr

inductive Command where
  | perform (job : Job)
  | version
  | help
  /-- The arguments cannot be used. -/
  | refused
  deriving DecidableEq, Repr

/-- The arguments read so far. -/
structure Options where
  fromFile : Bool
  mode : Option Mode
  limit : Option Nat
  contents : Option String
  deriving DecidableEq, Repr

/-- An option that takes a value. -/
inductive Setting where
  | mode
  | limit
  deriving DecidableEq, Repr

/-- A 64-bit count in decimal digits, which a plus sign may precede. -/
def readCount (text : String) : Option Nat :=
  let digits := match text.toList with
    | '+' :: digits => digits
    | digits => digits
  let count := Nat.ofDigitChars 10 digits 0
  if !digits.isEmpty && digits.all isDigit && count < UInt64.size then some count else none

namespace Options

/-- No argument is read yet. -/
def initial : Options := ⟨false, none, none, none⟩

def setFromFile (options : Options) : Option Options :=
  if options.fromFile then none else some { options with fromFile := true }

def setContents (options : Options) (text : String) : Option Options :=
  if options.contents.isSome then none else some { options with contents := some text }

def set (options : Options) (setting : Setting) (value : String) : Option Options :=
  match setting with
  | .mode =>
    if options.mode.isSome then none
    else (Mode.ofText? value).map fun mode ↦ { options with mode := some mode }
  | .limit =>
    if options.limit.isSome then none
    else (readCount value).map fun limit ↦ { options with limit := some limit }

/-- The command when all arguments are read. -/
def finish (options : Options) : Command :=
  match options.contents with
  | some contents =>
    .perform ⟨options.fromFile, options.mode.getD .run, options.limit.getD defaultLimit, contents⟩
  | none => .refused

end Options

/-- What one argument does. -/
inductive Step where
  | proceed (options : Options)
  /-- The next argument is the value of an option. -/
  | await (options : Options) (setting : Setting)
  | operandsOnly
  | stop (command : Command)
  deriving DecidableEq, Repr

namespace Step

def ofOptions : Option Options → Step
  | some options => .proceed options
  | none => .stop .refused

/-- An option by its long name, with the value joined to it, if there is one. -/
def long (options : Options) (name : String) (value : Option String) : Step :=
  match name, value with
  | "file", none => ofOptions options.setFromFile
  | "version", none => .stop .version
  | "help", none => .stop .help
  | "mode", none => .await options .mode
  | "mode", some value => ofOptions (options.set .mode value)
  | "max-depth", none => .await options .limit
  | "max-depth", some value => ofOptions (options.set .limit value)
  | _, _ => .stop .refused

/-- One-letter options in a row. What follows one that takes a value is its value, which an equals
sign may precede. -/
def letters (options : Options) : List Char → Step
  | [] => .proceed options
  | 'f' :: others =>
    match options.setFromFile with
    | some options => letters options others
    | none => .stop .refused
  | 'm' :: [] => .await options .mode
  | 'm' :: '=' :: value => ofOptions (options.set .mode (String.ofList value))
  | 'm' :: value => ofOptions (options.set .mode (String.ofList value))
  | 'V' :: _ => .stop .version
  | 'h' :: _ => .stop .help
  | _ => .stop .refused

def ofArgument (options : Options) (argument : String) : Step :=
  match argument.toList with
  | ['-', '-'] => .operandsOnly
  | '-' :: '-' :: option =>
    let name := String.ofList (option.takeWhile (· != '='))
    match option.dropWhile (· != '=') with
    | _ :: value => long options name (some (String.ofList value))
    | [] => long options name none
  | '-' :: first :: others => letters options (first :: others)
  | _ => ofOptions (options.setContents argument)

end Step

/-- Whether an argument cannot be the value of the option before it. A single dash can. -/
def isOption (argument : String) : Bool :=
  match argument.toList with
  | '-' :: _ :: _ => true
  | _ => false

namespace Command

/-- Reads arguments of which each is the contents. -/
def readOperands (options : Options) : List String → Command
  | [] => options.finish
  | argument :: others =>
    match options.setContents argument with
    | some options => readOperands options others
    | none => .refused

def readFrom (options : Options) : List String → Command
  | [] => options.finish
  | argument :: others =>
    match Step.ofArgument options argument with
    | .proceed options => readFrom options others
    | .operandsOnly => readOperands options others
    | .stop command => command
    | .await options setting =>
      match others with
      | [] => .refused
      | value :: later =>
        if isOption value then .refused
        else
          match options.set setting value with
          | some options => readFrom options later
          | none => .refused

def read (arguments : List String) : Command := readFrom Options.initial arguments

end Command

/-- What the program prints, on its two channels, and the code with which it ends. -/
structure Response where
  code : Nat
  output : String
  complaint : String
  deriving DecidableEq, Repr

namespace Response

def success (output : String) : Response := ⟨0, output, ""⟩

def failure (complaint : String) : Response := ⟨1, "", complaint ++ "\n"⟩

/-- What a report means to the user. -/
def ofReport {α : Type} (report : Report α) (text : α → String) : Response :=
  match report.outcome with
  | .ok value => success (text value)
  | .error fault => failure fault.message

end Response

def versionText : String := "scopewalk 0.1.0\n"

def usageText : String :=
  "Usage: scopewalk [-f|--file] [-m|--mode run|check|regen] [--max-depth N] <contents>\n"

/-- The variables of a store, one a line. -/
def storeText (store : Store) : String :=
  String.join (store.entries.map fun entry ↦ entry.1 ++ " = " ++ entry.2.text ++ "\n")

namespace Command

def respondToText (mode : Mode) (limit : Nat) (text : String) : Response :=
  match mode with
  | .run => .ofReport (run limit text) storeText
  | .check => .ofReport (check limit text) fun _ ↦ ""
  | .regen => .ofReport (annotate limit text) (· ++ "\n")

/-- The answer to a command, given how to read a file; `none` is a file that cannot be read. -/
def respond {m : Type → Type} [Monad m] (readText : String → m (Option String)) :
    Command → m Response
  | .version => return .success versionText
  | .help => return .success usageText
  | .refused => return ⟨2, "", usageText⟩
  | .perform job => do
    if job.fromFile then
      match ← readText job.contents with
      | some text => return respondToText job.mode job.limit text
      | none =>
        return .failure ("Failed to read the input file '" ++ job.contents ++
          "'. Perhaps this file does not exist?")
    else return respondToText job.mode job.limit job.contents

end Command

end MiniPascal
