import ResourceQuery.Check
import ResourceQuery.Manual

/-!
# The command line

    check [-P prefixes] [-p] [-i] [--syntax-only] clause [expression]
    docs
    doc topic
    help [command]

Options and operands may be mixed, and after `--` all arguments are operands. No option may be
given twice. An expression that is not an operand is read from the standard input, unless that is a
terminal.

Help may be asked for by `-h` or `--help` before a command or among its arguments, and the version
by `-V` or `--version` before a command. The first such question is answered, and what stands
behind it does not count. For help and for misuse the exit codes are modelled and not the texts,
which are one line of usage here.
-/

namespace ResourceQuery

set_option autoImplicit false

namespace CommandLine

/-- What the arguments of a command have given so far; operands stand in order. -/
structure Given where
  operands : List String
  prefixes : Option String
  pretty : Bool
  invert : Bool
  syntaxOnly : Bool
  deriving DecidableEq, Repr

/-- How the next argument is taken; none is taken any more where help has been asked for. -/
inductive Mode where
  | any
  | prefixes
  | operands
  | help
  deriving DecidableEq, Repr

structure Scan where
  given : Given
  mode : Mode
  deriving DecidableEq, Repr

namespace Given

def empty : Given := ⟨[], none, false, false, false⟩

def addOperand (g : Given) (operand : String) : Given :=
  { g with operands := g.operands ++ [operand] }

def setPrefixes? (g : Given) (value : String) : Option Given :=
  if g.prefixes.isSome then none else some { g with prefixes := some value }

def setPretty? (g : Given) : Option Given :=
  if g.pretty then none else some { g with pretty := true }

def setInvert? (g : Given) : Option Given :=
  if g.invert then none else some { g with invert := true }

def setSyntaxOnly? (g : Given) : Option Given :=
  if g.syntaxOnly then none else some { g with syntaxOnly := true }

end Given

namespace Scan

/-- Takes the letters of one argument. A letter that needs a value takes what is left of the
argument, less an equals sign, or else the next argument. -/
def letters? (g : Given) : List Char → Option Scan
  | [] => some ⟨g, .any⟩
  | 'p' :: rest => g.setPretty?.bind fun g => letters? g rest
  | 'i' :: rest => g.setInvert?.bind fun g => letters? g rest
  | 'h' :: _ => some ⟨g, .help⟩
  | ['P'] => some ⟨g, .prefixes⟩
  | 'P' :: '=' :: value => (g.setPrefixes? (String.ofList value)).map (⟨·, .any⟩)
  | 'P' :: value => (g.setPrefixes? (String.ofList value)).map (⟨·, .any⟩)
  | _ => none

/-- Takes an option by its long name, with the value after its equals sign if it has one. -/
def word? (g : Given) (name : String) (value : Option String) : Option Scan :=
  match name, value with
  | "prefixes", some value => (g.setPrefixes? value).map (⟨·, .any⟩)
  | "prefixes", none => some ⟨g, .prefixes⟩
  | "pretty", none => g.setPretty?.map (⟨·, .any⟩)
  | "invert", none => g.setInvert?.map (⟨·, .any⟩)
  | "syntax-only", none => g.setSyntaxOnly?.map (⟨·, .any⟩)
  | "help", none => some ⟨g, .help⟩
  | _, _ => none

def splitWord (chars : List Char) : String × Option String :=
  let name := String.ofList (chars.takeWhile (· != '='))
  match chars.dropWhile (· != '=') with
  | [] => (name, none)
  | _ :: value => (name, some (String.ofList value))

/-- Takes the next argument; `none` is an argument that has no place. A command that has no options
can be asked for help all the same. -/
def step (hasOptions : Bool) (s : Scan) (argument : String) : Option Scan :=
  match s.mode, argument.toList with
  | .help, _ => some s
  | .operands, _ => some ⟨s.given.addOperand argument, .operands⟩
  | .prefixes, '-' :: _ :: _ => none
  | .prefixes, _ => (s.given.setPrefixes? argument).map (⟨·, .any⟩)
  | .any, ['-', '-'] => some ⟨s.given, .operands⟩
  | .any, '-' :: '-' :: chars =>
    let (name, value) := splitWord chars
    if hasOptions || name == "help" then word? s.given name value else none
  | .any, '-' :: c :: chars =>
    if hasOptions || c == 'h' then letters? s.given (c :: chars) else none
  | .any, _ => some ⟨s.given.addOperand argument, .any⟩

def all? (hasOptions : Bool) (arguments : List String) : Option Scan :=
  (arguments.foldlM (step hasOptions) ⟨.empty, .any⟩).bind fun s =>
    if s.mode = .prefixes then none else some s

end Scan

end CommandLine

inductive Command where
  /-- The expression is that of the check, or is to be read where there is none. -/
  | check (clause : Clause) (expression : Option String) (given : CommandLine.Given)
  | overview
  | topic (name : String)
  | help
  | version
  deriving DecidableEq, Repr

/-- The standard input: a terminal, or what comes from another program or a file. -/
inductive Input where
  | terminal
  | piped (bytes : ByteArray)

/-- Bytes that are given as the input do not come from a terminal. -/
instance : Coe ByteArray Input := ⟨.piped⟩

/-- Why a command does not succeed: it has nothing to check, or what it does fails. -/
inductive Refusal where
  | noInput
  | failed (failure : Failure)
  deriving DecidableEq, Repr

def Refusal.message : Refusal → String
  | noInput => "No expression provided. Pass it as an argument or pipe it to stdin."
  | failed failure => failure.message

structure Outcome where
  code : UInt32
  stdout : String
  stderr : String
  deriving DecidableEq, Repr

namespace Command

open CommandLine (Given Scan)

def check? (given : Given) : Option Command :=
  match given.operands with
  | [clause] => (Clause.ofName? clause).map (check · none given)
  | [clause, expression] => (Clause.ofName? clause).map (check · (some expression) given)
  | _ => none

def overview? (given : Given) : Option Command :=
  match given.operands with
  | [] => some overview
  | _ => none

def topic? (given : Given) : Option Command :=
  match given.operands with
  | [name] => some (topic name)
  | _ => none

/-- The command of the arguments that have been taken. Where help is asked for, the operands before
the question need not be all there, but those that are must have a place. -/
def ofScan? (command? : Given → Option Command) (s : Scan) : Option Command :=
  if s.mode = .help then
    if s.given.operands.isEmpty || (command? s.given).isSome then some help else none
  else command? s.given

/-- A question that stands before a command. -/
def ofQuestion? (argument : String) : Option Command :=
  match argument.toList with
  | '-' :: 'h' :: _ => some help
  | '-' :: 'V' :: _ => some version
  | _ =>
    if argument = "--help" then some help
    else if argument = "--version" then some version
    else none

def ofArguments? : List String → Option Command
  | [] => none
  | "check" :: arguments => (Scan.all? true arguments).bind (ofScan? check?)
  | "docs" :: arguments => (Scan.all? false arguments).bind (ofScan? overview?)
  | "doc" :: arguments => (Scan.all? false arguments).bind (ofScan? topic?)
  | ["help"] => some help
  | ["help", name] => if name ∈ ["check", "docs", "doc", "help"] then some help else none
  | argument :: _ => ofQuestion? argument

def readsInput : Command → Bool
  | check _ none _ => true
  | _ => false

/-- A text less the line ends that it ends with. -/
def trimLineEnds (s : String) : String :=
  String.ofList (s.toList.reverse.dropWhile fun c => c == '\r' || c == '\n').reverse

/-- The expression of a check, which is read from the input where it is not given. -/
def readExpression (input : Input) : Option String → Except Refusal String
  | some expression => .ok expression
  | none =>
    match input with
    | .terminal => .error .noInput
    | .piped bytes =>
      match String.fromUTF8? bytes with
      | some text => .ok (trimLineEnds text)
      | none => .error (.failed .notText)

def usage : String := "usage: oslcq check CLAUSE [EXPRESSION] | oslcq docs | oslcq doc TOPIC\n"

/-- What a command writes when it succeeds. An option for the prefixes wins over the prefixes
of the environment. -/
def output (environment : Option String) (input : Input) : Command → Except Refusal String
  | help => .ok usage
  | version => .ok "oslcq 0.1.0\n"
  | overview => .ok Manual.overview
  | topic name =>
    match Topic.ofName? name with
    | some found => .ok found.page
    | none => .error (.failed (.unknownTopic name))
  | check clause expression given => do
    let expression ← readExpression input expression
    let prefixes := given.prefixes.or environment
    let check : Check :=
      ⟨clause, expression, prefixes, given.pretty, given.invert, given.syntaxOnly⟩
    match ← check.run.mapError .failed with
    | some tree => return check.render tree ++ "\n"
    | none => return "Syntax is valid\n"

def run (environment : Option String) (input : Input) (c : Command) : Outcome :=
  match c.output environment input with
  | .ok text => ⟨0, text, ""⟩
  | .error refusal => ⟨1, "", refusal.message ++ "\n"⟩

end Command

namespace CommandLine

def misuse : Outcome := ⟨2, "", Command.usage⟩

def readsInput (arguments : List String) : Bool :=
  match Command.ofArguments? arguments with
  | some command => command.readsInput
  | none => false

def run (arguments : List String) (environment : Option String) (input : Input) : Outcome :=
  match Command.ofArguments? arguments with
  | some command => command.run environment input
  | none => misuse

end CommandLine

end ResourceQuery
