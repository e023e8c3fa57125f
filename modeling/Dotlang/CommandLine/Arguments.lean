/-!
# Arguments of the compiler command

`Arguments.parse` reads the arguments from left to right. Flags may be joined, as in `-qe`; an option takes
its value from the same argument (`--config=FILE`, `-cFILE`) or from the next one, which must not look like
a flag. After `--` every argument is the input. A flag or option may be given once, and exactly one input is
needed, unless the version is asked for first.
-/

namespace Dotlang.CommandLine

inductive Flag where
  | tokens | symbols | asm | ir | json | emit | quiet
  deriving DecidableEq, Repr

/-- Options that take a value. -/
inductive Setting where
  | maxSteps | config
  deriving DecidableEq, Repr

structure Arguments where
  input : Option String := none
  flags : List Flag := []
  maxSteps : Option Nat := none
  config : Option String := none
  deriving DecidableEq, Repr

/-- What the arguments ask for. -/
inductive Request where
  | version
  | compile (input : String) (args : Arguments)
  deriving DecidableEq, Repr

inductive UsageError where
  | unknown (arg : String)
  | repeated (arg : String)
  | unwantedValue (arg : String)
  | missingValue (arg : String)
  | invalidValue (value : String)
  | surplus (arg : String)
  | missingInput
  deriving DecidableEq, Repr

def UsageError.message : UsageError → String
  | unknown arg => "unexpected argument '" ++ arg ++ "'"
  | repeated arg => "the argument '" ++ arg ++ "' cannot be used more than once"
  | unwantedValue arg => "the argument '" ++ arg ++ "' takes no value"
  | missingValue arg => "the argument '" ++ arg ++ "' needs a value"
  | invalidValue value => "invalid value '" ++ value ++ "'"
  | surplus arg => "unexpected argument '" ++ arg ++ "'"
  | missingInput => "the input file is missing"

/-- What a long or short name stands for. -/
inductive Name where
  | flag (f : Flag)
  | setting (s : Setting)
  | version
  deriving DecidableEq, Repr

def longName? (name : String) : Option Name :=
  [("tokens", .flag .tokens), ("symbols", .flag .symbols), ("asm", .flag .asm), ("ir", .flag .ir),
    ("json", .flag .json), ("emit", .flag .emit), ("quiet", .flag .quiet),
    ("max-steps", .setting .maxSteps), ("config", .setting .config), ("version", .version)].lookup name

def shortName? (c : Char) : Option Name :=
  [('e', .flag .emit), ('q', .flag .quiet), ('c', .setting .config), ('V', .version)].lookup c

/-- A number below `2 ^ 64`, perhaps after a plus sign. -/
def number? (value : String) : Option Nat :=
  let ds := match value.toList with
    | '+' :: ds => ds
    | ds => ds
  let n := Nat.ofDigitChars 10 ds 0
  if ds ≠ [] ∧ ds.all Char.isDigit ∧ n < UInt64.size then some n else none

namespace Arguments

def addFlag (a : Arguments) (f : Flag) (arg : String) : Except UsageError Arguments :=
  if f ∈ a.flags then .error (.repeated arg) else .ok { a with flags := a.flags ++ [f] }

def set (a : Arguments) (s : Setting) (arg value : String) : Except UsageError Arguments :=
  match s with
  | .maxSteps =>
    if a.maxSteps.isSome then .error (.repeated arg)
    else
      match number? value with
      | some n => .ok { a with maxSteps := some n }
      | none => .error (.invalidValue value)
  | .config =>
    if a.config.isSome then .error (.repeated arg)
    else if value = "" then .error (.missingValue arg)
    else .ok { a with config := some value }

def setInput (a : Arguments) (value : String) : Except UsageError Arguments :=
  if a.input.isSome then .error (.surplus value)
  else if value = "" then .error .missingInput
  else .ok { a with input := some value }

/-- What is known after one argument. -/
inductive Progress where
  | next (a : Arguments)
  /-- The value of the setting is the next argument. -/
  | value (s : Setting) (a : Arguments)
  | version

/-- The names joined behind one dash. -/
def readShort (arg : String) (a : Arguments) : List Char → Except UsageError Progress
  | [] => .ok (.next a)
  | c :: cs =>
    match shortName? c with
    | none => .error (.unknown arg)
    | some .version => .ok .version
    | some (.flag f) => do readShort arg (← a.addFlag f arg) cs
    | some (.setting s) =>
      match cs with
      | [] => .ok (.value s a)
      | '=' :: value => .next <$> a.set s arg (String.ofList value)
      | value => .next <$> a.set s arg (String.ofList value)

/-- The name behind two dashes, perhaps with a value. -/
def readLong (arg : String) (a : Arguments) (cs : List Char) : Except UsageError Progress :=
  let name := String.ofList (cs.takeWhile (· ≠ '='))
  match longName? name, cs.dropWhile (· ≠ '=') with
  | none, _ => .error (.unknown arg)
  | some .version, [] => .ok .version
  | some (.flag f), [] => .next <$> a.addFlag f arg
  | some (.setting s), [] => .ok (.value s a)
  | some (.setting s), _ :: value => .next <$> a.set s arg (String.ofList value)
  | some _, _ => .error (.unwantedValue arg)

/-- An argument that is not the value of a setting. A dash alone is an input. -/
def readOne (a : Arguments) (arg : String) : Except UsageError Progress :=
  match arg.toList with
  | '-' :: '-' :: cs => readLong arg a cs
  | '-' :: c :: cs => readShort arg a (c :: cs)
  | _ => .next <$> a.setInput arg

/-- Whether an argument cannot be the value of a setting. -/
def looksLikeFlag (arg : String) : Bool :=
  match arg.toList with
  | '-' :: _ :: _ => true
  | _ => false

def finish (a : Arguments) : Except UsageError Request :=
  match a.input with
  | some input => .ok (.compile input a)
  | none => .error .missingInput

def readAll (a : Arguments) : List String → Except UsageError Request
  | [] => a.finish
  | arg :: rest =>
    if arg = "--" then do (← rest.foldlM setInput a).finish
    else
      match a.readOne arg with
      | .error e => .error e
      | .ok .version => .ok .version
      | .ok (.next a) => readAll a rest
      | .ok (.value s a) =>
        match rest with
        | [] => .error (.missingValue arg)
        | value :: rest =>
          if looksLikeFlag value then .error (.missingValue arg)
          else
            match a.set s arg value with
            | .error e => .error e
            | .ok a => readAll a rest

def parse (args : List String) : Except UsageError Request := readAll {} args

end Arguments

end Dotlang.CommandLine
