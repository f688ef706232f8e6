-- The options of the command line. An option has a long name and may have a short one; its
-- value stands behind it or in the next argument. What is given twice, is not known or lacks
-- its value makes the whole line wrong.
import ClassAtlas.Text.Split

namespace ClassAtlas.CommandLine

/-! ## Flags -/

inductive Flag
  | path
  | config
  | accept
  | reject
  | output
  | full
  | className
  | accessibleOnly
  | carriers
  | subtypes
  | help
  | version
deriving DecidableEq

namespace Flag

def all : List Flag :=
  [path, config, accept, reject, output, full, className, accessibleOnly, carriers, subtypes, help,
    version]

def long : Flag → String
  | path => "path"
  | config => "config"
  | accept => "accept"
  | reject => "reject"
  | output => "output"
  | full => "full"
  | className => "class"
  | accessibleOnly => "accessible-only"
  | carriers => "annotation"
  | subtypes => "subtypes"
  | help => "help"
  | version => "version"

def short? : Flag → Option Char
  | path => some 'p'
  | config => some 'c'
  | output => some 'o'
  | help => some 'h'
  | version => some 'V'
  | _ => none

/-- What the value of a flag is called, if the flag takes one. -/
def value? : Flag → Option String
  | path => some "PATH"
  | config | output => some "FILE"
  | accept | reject => some "PKG"
  | className | carriers | subtypes => some "NAME"
  | full | accessibleOnly | help | version => none

def about : Flag → String
  | path => "Classpath entry or platform path list; may be repeated"
  | config => "TOML configuration file"
  | accept => "Package prefixes to scan"
  | reject => "Package prefixes to skip"
  | output => "Write the class graph as compact JSON"
  | full => "Include members and edge origins in the JSON output"
  | className => "Print the dependencies of this class"
  | accessibleOnly => "Restrict --class to dependencies reachable through inheritance"
  | carriers => "Print the classes carrying this annotation"
  | subtypes => "Print the subtypes of this class or interface"
  | help => "Print help"
  | version => "Print version"

def ofLong? (name : String) : Option Flag := all.find? fun flag => flag.long = name

def ofShort? (letter : Char) : Option Flag := all.find? fun flag => flag.short? = some letter

end Flag

/-! ## Options -/

structure Options where
  /-- Class paths, each of them one text. -/
  paths : List String := []
  config : Option String := none
  acceptPackages : List String := []
  rejectPackages : List String := []
  output : Option String := none
  full : Bool := false
  className : Option String := none
  accessibleOnly : Bool := false
  /-- The type of which the classes that carry it are asked for. -/
  carriedType : Option String := none
  supertype : Option String := none
deriving DecidableEq

/-- What a command line asks for. -/
inductive Request
  | help
  | version
  | scan (options : Options)
deriving DecidableEq

/-- What is wrong with a command line. -/
inductive UsageFault
  | unexpected (argument : String)
  | missingValue (flag : Flag)
  | needlessValue (flag : Flag)
  | emptyValue (flag : Flag)
  | repeated (flag : Flag)
deriving DecidableEq

def UsageFault.message : UsageFault → String
  | unexpected argument => "unexpected argument '" ++ argument ++ "' found"
  | missingValue flag => "a value is required for '--" ++ flag.long ++ "' but none was supplied"
  | needlessValue flag => "unexpected value for '--" ++ flag.long ++ "' found"
  | emptyValue flag => "a value is required for '--" ++ flag.long ++ "' but it is empty"
  | repeated flag => "the argument '--" ++ flag.long ++ "' cannot be used multiple times"

namespace Options

/-- Sets a value that may be given once. -/
def setOnce (flag : Flag) (old : Option String) (value : String) :
    Except UsageFault (Option String) :=
  if old.isSome then .error (.repeated flag) else .ok (some value)

/-- Sets a path that may be given once and is not empty. -/
def setFile (flag : Flag) (old : Option String) (value : String) :
    Except UsageFault (Option String) :=
  if value = "" then .error (.emptyValue flag) else setOnce flag old value

/-- The parts of a value between commas. -/
def commaParts (value : String) : List String :=
  (Text.splitAt ',' value.toList).map String.ofList

/-- The options with the value of a flag. -/
def setValue (o : Options) (flag : Flag) (value : String) : Except UsageFault Options :=
  match flag with
  | .path => .ok { o with paths := o.paths ++ [value] }
  | .config => return { o with config := ← setFile flag o.config value }
  | .accept => .ok { o with acceptPackages := o.acceptPackages ++ commaParts value }
  | .reject => .ok { o with rejectPackages := o.rejectPackages ++ commaParts value }
  | .output => return { o with output := ← setFile flag o.output value }
  | .className => return { o with className := ← setOnce flag o.className value }
  | .carriers => return { o with carriedType := ← setOnce flag o.carriedType value }
  | .subtypes => return { o with supertype := ← setOnce flag o.supertype value }
  | .full | .accessibleOnly | .help | .version => .error (.needlessValue flag)

end Options

/-! ## Reading -/

/-- Where reading stands behind an argument. -/
inductive Step
  | go (options : Options)
  /-- The value of a flag is the next argument. -/
  | wants (flag : Flag) (options : Options)
  | done (request : Request)

/-- A flag without a value. -/
def setFlag (o : Options) (flag : Flag) : Except UsageFault Step :=
  match flag with
  | .help => .ok (.done .help)
  | .version => .ok (.done .version)
  | .full => if o.full then .error (.repeated flag) else .ok (.go { o with full := true })
  | .accessibleOnly =>
    if o.accessibleOnly then .error (.repeated flag)
    else .ok (.go { o with accessibleOnly := true })
  | _ => .ok (.wants flag o)

/-- An argument that starts with two dashes, without them. -/
def readLong (o : Options) (text : List Char) : Except UsageFault Step :=
  let name := String.ofList (text.takeWhile (· ≠ '='))
  match Flag.ofLong? name, text.dropWhile (· ≠ '=') with
  | none, _ => .error (.unexpected ("--" ++ name))
  | some flag, [] => setFlag o flag
  | some flag, _ :: value => (o.setValue flag (String.ofList value)).map .go

/-- Short flags in one argument, without the dash. What stands behind a flag that takes a
value is its value. -/
def readShort (o : Options) : List Char → Except UsageFault Step
  | [] => .ok (.go o)
  | letter :: rest =>
    match Flag.ofShort? letter with
    | none => .error (.unexpected (String.ofList ['-', letter]))
    | some flag =>
      if flag.value?.isSome then
        match rest with
        | [] => .ok (.wants flag o)
        | '=' :: value => (o.setValue flag (String.ofList value)).map .go
        | value => (o.setValue flag (String.ofList value)).map .go
      else
        match setFlag o flag with
        | .ok (.go o) => readShort o rest
        | other => other

/-- An argument that stands where a flag may stand. -/
def readArgument (o : Options) (argument : String) : Except UsageFault Step :=
  match argument.toList with
  | '-' :: '-' :: text => readLong o text
  | '-' :: letter :: rest => readShort o (letter :: rest)
  | _ => .error (.unexpected argument)

/-- Whether an argument can be the value of the flag in front of it. -/
def isValue (argument : String) : Bool := argument.toList.head? ≠ some '-' || argument = "-"

/-- Reads the arguments from some options on. -/
def readFrom (o : Options) : List String → Except UsageFault Request
  | [] => .ok (.scan o)
  | "--" :: rest =>
    match rest with
    | [] => .ok (.scan o)
    | argument :: _ => .error (.unexpected argument)
  | argument :: rest => do
    match ← readArgument o argument with
    | .done request => return request
    | .go o => readFrom o rest
    | .wants flag o =>
      match rest with
      | [] => throw (.missingValue flag)
      | value :: rest =>
        if isValue value then readFrom (← o.setValue flag value) rest
        else throw (.missingValue flag)

/-- What some arguments ask for. -/
def parse (arguments : List String) : Except UsageFault Request := readFrom {} arguments

/-! ## Help -/

def version : String := "classweave 0.1.0"

/-- A flag with its value as the help shows it. -/
def usage (flag : Flag) : String :=
  let letter := match flag.short? with
    | some c => String.ofList ['-', c, ',', ' ']
    | none => "    "
  letter ++ "--" ++ flag.long ++
    match flag.value? with
    | some value => " <" ++ value ++ ">"
    | none => ""

/-- A text with blanks behind it up to a width. -/
def padTo (width : Nat) (text : String) : String :=
  text ++ String.ofList (List.replicate (width - text.length) ' ')

def help : List String :=
  let width := (Flag.all.map fun flag => (usage flag).length).foldl max 0
  ["Scan a classpath into a class graph without loading any classes", "",
    "Usage: classweave [OPTIONS]", "", "Options:"] ++
    Flag.all.map fun flag => "  " ++ padTo width (usage flag) ++ "  " ++ flag.about

end ClassAtlas.CommandLine
