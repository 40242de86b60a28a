/-!
What a command line asks for. Options are written `--name value`, `--name=value`, `-n value`,
`-nvalue` or `-n=value`, each at most once; `--` ends them. A value or an operand may start with a
hyphen only if it is given by `=`, attached, a lone hyphen, or behind `--`.
-/

namespace ForkTree.Command

/-- How a rebuilt tree is shown. -/
inductive Format where
  | graph
  | nested
  | summary
  deriving DecidableEq, Repr

def Format.ofName? : String → Option Format
  | "dot" => some .graph
  | "json" => some .nested
  | "summary" => some .summary
  | _ => none

inductive Request where
  /-- Rebuild a tree from its log and show it. -/
  | replay (log : Option String) (format : Format)
  /-- Check a log. -/
  | verify (log : Option String)
  /-- Show constraints in infix form; without any, the lines of the input. -/
  | constraints (texts : List String)
  /-- Merge two snapshot files into a third. -/
  | merge (base incoming out : String)
  deriving DecidableEq, Repr

/-- An option of a request: its name, its letter if it has one, and the values it takes. -/
structure Flag where
  name : String
  letter : Option Char
  takes : String → Bool

/-- Why the reading of a command line stops early. -/
inductive Stop where
  | help
  | misuse
  deriving DecidableEq, Repr

/-- What was given: options with their values, and operands. -/
structure Given where
  values : List (String × String)
  operands : List String

namespace Given

def value? (g : Given) (name : String) : Option String :=
  (g.values.find? (·.1 = name)).map Prod.snd

/-- Note the value of an option that was not given yet. -/
def add (g : Given) (f : Flag) (value : String) : Except Stop Given :=
  if f.takes value ∧ g.value? f.name = none then
    .ok { g with values := (f.name, value) :: g.values }
  else .error .misuse

end Given

/-- A hyphen with something behind it. -/
def looksLikeOption (s : String) : Bool := s.startsWith "-" && s ≠ "-"

/-- A text before and after its first equals sign. -/
def splitAssignment (cs : List Char) : String × Option String :=
  let name := String.ofList (cs.takeWhile (· ≠ '='))
  match cs.dropWhile (· ≠ '=') with
  | _ :: value => (name, some (String.ofList value))
  | [] => (name, none)

/-- Take an option apart into its flag and an attached value. -/
def option? (flags : List Flag) (arg : String) : Except Stop (Flag × Option String) :=
  match arg.toList with
  | '-' :: '-' :: cs =>
    let (name, value) := splitAssignment cs
    match flags.find? fun f => f.name = name with
    | some f => .ok (f, value)
    | none => if name = "help" ∧ value = none then .error .help else .error .misuse
  | '-' :: letter :: cs =>
    match flags.find? fun f => f.letter = some letter with
    | some f =>
      match cs with
      | [] => .ok (f, none)
      | '=' :: value => .ok (f, some (String.ofList value))
      | value => .ok (f, some (String.ofList value))
    | none => if letter = 'h' then .error .help else .error .misuse
  | _ => .error .misuse

/-- Read the options and operands of a request that knows the given options. -/
def gather (flags : List Flag) (takesOperands : Bool) (g : Given) :
    List String → Except Stop Given
  | [] => .ok g
  | arg :: rest =>
    if arg = "--" then
      if takesOperands || rest.isEmpty then .ok { g with operands := g.operands ++ rest }
      else .error .misuse
    else if looksLikeOption arg then do
      match ← option? flags arg with
      | (f, some value) => gather flags takesOperands (← g.add f value) rest
      | (f, none) =>
        match rest with
        | value :: rest =>
          if looksLikeOption value then .error .misuse
          else gather flags takesOperands (← g.add f value) rest
        | [] => .error .misuse
    else if takesOperands then
      gather flags takesOperands { g with operands := g.operands ++ [arg] } rest
    else .error .misuse

/-- An option that takes a path, which must not be empty. -/
def pathFlag (name : String) (letter : Option Char) : Flag := ⟨name, letter, (· ≠ "")⟩

def logFlag : Flag := pathFlag "log" (some 'l')

def formatFlag : Flag := ⟨"format", some 'f', fun name => (Format.ofName? name).isSome⟩

def mergeFlags : List Flag :=
  [pathFlag "base" none, pathFlag "incoming" none, pathFlag "out" none]

namespace Request

def replay? (args : List String) : Except Stop Request := do
  let g ← gather [logFlag, formatFlag] false ⟨[], []⟩ args
  return replay (g.value? "log") (((g.value? "format").bind Format.ofName?).getD .summary)

def verify? (args : List String) : Except Stop Request := do
  let g ← gather [logFlag] false ⟨[], []⟩ args
  return verify (g.value? "log")

def constraints? (args : List String) : Except Stop Request := do
  let g ← gather [] true ⟨[], []⟩ args
  return constraints g.operands

def merge? (args : List String) : Except Stop Request := do
  let g ← gather mergeFlags false ⟨[], []⟩ args
  match g.value? "base", g.value? "incoming", g.value? "out" with
  | some base, some incoming, some out => return merge base incoming out
  | _, _, _ => throw .misuse

def names : List String := ["replay", "verify", "infix", "merge", "help"]

/-- Help is for the whole program or for one request. -/
def help : List String → Stop
  | [] => .help
  | [name] => if name ∈ names then .help else .misuse
  | _ => .misuse

/-- The request of a command line without the program's name. -/
def ofArgs? : List String → Except Stop Request
  | "replay" :: args => replay? args
  | "verify" :: args => verify? args
  | "infix" :: args => constraints? args
  | "merge" :: args => merge? args
  | "help" :: args => .error (help args)
  | arg :: _ => (option? [] arg).bind fun _ => .error .misuse
  | [] => .error .misuse

end Request

end ForkTree.Command
