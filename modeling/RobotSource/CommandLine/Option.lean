/-!
# Options of a command

An option is given by its long name behind two dashes or by its letter behind one. Its value is
attached with an equals sign, stands directly behind the letter, or is the next argument, unless
that begins with a dash of its own. Letters may share a dash. An option may be given once, and its
value is tested as it is read. Two dashes alone end the options.
-/

namespace RobotSource.CommandLine

/-- What an option can be. -/
structure OptionSpec where
  long : String
  letter : Option Char
  /-- the values that it takes; none for a flag -/
  accepts : Option (String → Bool)

/-- Why arguments give no command: they are wrong, or they ask for help. -/
inductive Refusal where
  | misuse
  | help
deriving DecidableEq, Repr

/-- The options that were given, with their values. -/
abbrev Given := List (String × String)

/-- The value of an option. -/
def Given.value? (given : Given) (long : String) : Option String :=
  (given.find? (·.1 == long)).map (·.2)

/-- Notes an option. -/
def Given.add (given : Given) (spec : OptionSpec) (value : String) : Except Refusal Given :=
  if (given.value? spec.long).isSome then .error .misuse
  else if spec.accepts.all (· value) then .ok (given ++ [(spec.long, value)])
  else .error .misuse

/-- An argument that begins with a dash and goes on behind it. -/
def beginsOption (arg : String) : Bool :=
  match arg.toList with
  | '-' :: _ :: _ => true
  | _ => false

/-- The name and the attached value of an argument behind its two dashes. -/
def splitEquals (cs : List Char) : String × Option String :=
  (String.ofList (cs.takeWhile (· != '=')),
    match cs.dropWhile (· != '=') with
    | _ :: value => some (String.ofList value)
    | [] => none)

/-- What reading an argument leads to: more options, or an option that waits for its value. -/
inductive Reading where
  | read (given : Given)
  | waiting (given : Given) (spec : OptionSpec)

/-- Reads an option by its long name. -/
def readLong (specs : List OptionSpec) (given : Given) (cs : List Char) :
    Except Refusal Reading :=
  let (name, value) := splitEquals cs
  match specs.find? (·.long == name), value with
  | some spec, some value =>
    if spec.accepts.isSome then .read <$> given.add spec value else .error .misuse
  | some spec, none =>
    if spec.accepts.isSome then .ok (.waiting given spec) else .read <$> given.add spec ""
  | none, value => .error (if name = "help" ∧ value = none then .help else .misuse)

/-- Reads the options whose letters share a dash. -/
def readLetters (specs : List OptionSpec) (given : Given) : List Char → Except Refusal Reading
  | [] => .ok (.read given)
  | c :: cs =>
    match specs.find? (·.letter == some c) with
    | none => .error (if c = 'h' then .help else .misuse)
    | some spec =>
      if spec.accepts.isNone then do readLetters specs (← given.add spec "") cs
      else match cs with
        | [] => .ok (.waiting given spec)
        | '=' :: value => .read <$> given.add spec (String.ofList value)
        | value => .read <$> given.add spec (String.ofList value)

/-- Reads an argument that is no value. -/
def readArgument (specs : List OptionSpec) (given : Given) (arg : String) :
    Except Refusal Reading :=
  match arg.toList with
  | '-' :: '-' :: name => readLong specs given name
  | '-' :: c :: cs => readLetters specs given (c :: cs)
  | _ => .error .misuse

/-- Reads all options. -/
def readOptions (specs : List OptionSpec) (given : Given) : List String → Except Refusal Given
  | [] => .ok given
  | arg :: args =>
    if arg = "--" then
      if args.isEmpty then .ok given else .error .misuse
    else match readArgument specs given arg with
      | .error refusal => .error refusal
      | .ok (.read given) => readOptions specs given args
      | .ok (.waiting given spec) =>
        match args with
        | [] => .error .misuse
        | value :: args =>
          if beginsOption value then .error .misuse
          else match given.add spec value with
            | .ok given => readOptions specs given args
            | .error refusal => .error refusal

end RobotSource.CommandLine
