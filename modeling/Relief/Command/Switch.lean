/-!
# Switches on a command line

A command takes switches, each of them at most once and in any order: `--name value`, `--name=value`
or, if it takes no value, `--name`. The arguments are read from left to right, and the first of them
that is wrong, or asks for help, decides.

* `Switch`: what a command knows of a switch;
* `Switch.gather`: the switches that arguments set.
-/

namespace Relief.Command

/-- A switch that a command takes. -/
structure Switch where
  name : String
  /-- What the value is called in the help text; none if the switch takes no value. -/
  placeholder : Option String := none
  /-- What the switch does. -/
  purpose : String
  /-- The value that it has if it is not set. -/
  standard : Option String := none
  /-- The values that it may have, where there are but a few. -/
  choices : List String := []
  /-- Whether it must be set. -/
  required : Bool := false
  /-- Whether a value can be read. -/
  accepts : String → Bool := fun _ => true

/-- Why a command does not run. -/
inductive Stop where
  /-- The arguments ask for help with the command. -/
  | help
  /-- The arguments do not fit. -/
  | usage
  deriving DecidableEq, Repr

/-- A switch that has been set, by its name, and its value; the value is empty if it takes none. -/
structure Setting where
  name : String
  value : String
  deriving DecidableEq, Repr

/-- The value that a switch has been set to. -/
def setting? (settings : List Setting) (name : String) : Option String :=
  (settings.find? fun s => s.name = name).map Setting.value

/-- Whether a switch has been set. -/
def isSet (settings : List Setting) (name : String) : Bool :=
  (setting? settings name).isSome

namespace Switch

/-! ## 1. One argument -/

/-- An argument by its form. -/
inductive Form where
  /-- It begins with two hyphens: a name, and what is behind the first equals sign. -/
  | long (name : String) (attached : Option String)
  /-- It begins with one hyphen: the letters behind it. -/
  | short (letters : List Char)
  /-- Nothing but two hyphens: what follows are no switches. -/
  | rest
  | plain
  deriving DecidableEq, Repr

/-- The form of an argument. One hyphen alone is a plain one. -/
def formOf (arg : String) : Form :=
  match arg.toList with
  | ['-', '-'] => .rest
  | '-' :: '-' :: name =>
    match name.span (· ≠ '=') with
    | (name, []) => .long (.ofList name) none
    | (name, _ :: value) => .long (.ofList name) (some (.ofList value))
  | '-' :: c :: letters => .short (c :: letters)
  | _ => .plain

/-- Whether an argument can be the value of the switch before it. -/
def isValue (arg : String) : Bool :=
  formOf arg matches .plain

/-! ## 2. All arguments -/

/-- Sets a switch, unless it has been set or the value cannot be read. -/
def set (s : Switch) (value : String) (settings : List Setting) : Except Stop (List Setting) :=
  if isSet settings s.name || !s.accepts value then .error .usage
  else .ok (⟨s.name, value⟩ :: settings)

/-- The settings after some arguments, which may refer to the switches of a command. -/
def gather (switches : List Switch) : List String → List Setting → Except Stop (List Setting)
  | [], settings => .ok settings
  | arg :: args, settings =>
    match formOf arg with
    | .rest => if args.isEmpty then .ok settings else .error .usage
    | .plain => .error .usage
    | .short letters => .error (if letters.head? = some 'h' then .help else .usage)
    | .long name attached =>
      if name = "help" then .error (if attached.isSome then .usage else .help)
      else
        match switches.find? fun s => s.name = name with
        | none => .error .usage
        | some s =>
          match s.placeholder, attached with
          | none, some _ => .error .usage
          | none, none =>
            match s.set "" settings with
            | .error stop => .error stop
            | .ok settings => gather switches args settings
          | some _, some value =>
            match s.set value settings with
            | .error stop => .error stop
            | .ok settings => gather switches args settings
          | some _, none =>
            match args with
            | [] => .error .usage
            | value :: args =>
              if isValue value then
                match s.set value settings with
                | .error stop => .error stop
                | .ok settings => gather switches args settings
              else .error .usage

/-- The settings of a command line, in which all switches must be set that are required. -/
def read (switches : List Switch) (args : List String) : Except Stop (List Setting) :=
  match gather switches args [] with
  | .error stop => .error stop
  | .ok settings =>
    if switches.all fun s => !s.required || isSet settings s.name then .ok settings
    else .error .usage

end Switch

end Relief.Command
