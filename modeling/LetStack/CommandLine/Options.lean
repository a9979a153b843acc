import LetStack.Expr.Printer
import LetStack.Machine
import LetStack.Text.Decimal

namespace LetStack.CommandLine

inductive Stage where
  | resolve
  | typecheck
  | lift
  | codegen
  | link
  | run
  | eval
deriving DecidableEq, Repr

namespace Stage

/-- The stages in the order in which they are shown. -/
def all : List Stage := [resolve, typecheck, lift, codegen, link, run, eval]

def name : Stage → String
  | resolve => "resolve"
  | typecheck => "typecheck"
  | lift => "lift"
  | codegen => "codegen"
  | link => "link"
  | run => "run"
  | eval => "eval"

def ofName? (s : String) : Option Stage := all.find? fun stage => stage.name == s

def title : Stage → String
  | resolve => "Resolved"
  | typecheck => "Type"
  | lift => "Lifted"
  | codegen => "Code"
  | link => "Linked"
  | run => "Result"
  | eval => "Evaluated"

/-- Whether a stage shows what the compiler made. -/
def compiles : Stage → Bool
  | resolve | eval => false
  | typecheck | lift | codegen | link | run => true

end Stage

inductive Input where
  | expression (source : String)
  | file (path : String)
deriving DecidableEq, Repr

structure Options where
  input : Input
  stage : Option Stage
  sourceNames : Bool
  machine : Machine.Config
deriving DecidableEq, Repr

/-- The arguments read so far; each option may be given once. -/
structure Draft where
  file : Option String := none
  expression : Option String := none
  stage : Option Stage := none
  sourceNames : Bool := false
  stackSize : Option Nat := none
  maxSteps : Option Nat := none

namespace Draft

def once {α : Type} (old : Option α) (new : Option α) : Option α :=
  if old.isNone then new else none

/-- An empty word names no file. -/
def operand (d : Draft) (path : String) : Option Draft := do
  let file ← once d.file (if path.isEmpty then none else some path)
  return { d with file := some file }

def flag (d : Draft) (option : String) : Option Draft :=
  if option = "--source-names" ∧ !d.sourceNames then some { d with sourceNames := true } else none

def takesValue (option : String) : Bool :=
  option ∈ ["-e", "--expr", "--stage", "--stack-size", "--max-steps"]

def value (d : Draft) (option value : String) : Option Draft :=
  match option with
  | "-e" | "--expr" => do
    let expression ← once d.expression (some value)
    return { d with expression := some expression }
  | "--stage" => do
    let stage ← once d.stage (Stage.ofName? value)
    return { d with stage := some stage }
  | "--stack-size" => do
    let stackSize ← once d.stackSize (Text.unsigned64? value)
    return { d with stackSize := some stackSize }
  | "--max-steps" => do
    let maxSteps ← once d.maxSteps (Text.unsigned64? value)
    return { d with maxSteps := some maxSteps }
  | _ => none

/-- Exactly one of an expression and a file has to be given. -/
def finish (d : Draft) : Option Options := do
  let input ← match d.expression, d.file with
    | some source, none => some (.expression source)
    | none, some path => some (.file path)
    | _, _ => none
  let machine : Machine.Config := {}
  return {
    input
    stage := d.stage
    sourceNames := d.sourceNames
    machine := {
      stackSize := d.stackSize.getD machine.stackSize
      maxSteps := d.maxSteps.getD machine.maxSteps } }

end Draft

/-- A word that starts with a hyphen is an option, a hyphen alone is not. -/
def isOption (arg : String) : Bool :=
  match arg.toList with
  | '-' :: _ :: _ => true
  | _ => false

/-- Splits an option from a value written behind an equals sign, or, for a short option, directly
behind its letter. -/
def splitOption (arg : String) : String × Option String :=
  match arg.toList with
  | '-' :: '-' :: cs =>
    match cs.dropWhile (· != '=') with
    | [] => (arg, none)
    | _ :: value => ("--" ++ String.ofList (cs.takeWhile (· != '=')), some (String.ofList value))
  | '-' :: c :: '=' :: value => (String.ofList ['-', c], some (String.ofList value))
  | '-' :: c :: value@(_ :: _) => (String.ofList ['-', c], some (String.ofList value))
  | _ => (arg, none)

def readArgs (d : Draft) : List String → Option Draft
  | [] => some d
  | "--" :: rest => rest.foldlM Draft.operand d
  | arg :: rest =>
    if isOption arg then
      match splitOption arg with
      | (option, some value) => do readArgs (← d.value option value) rest
      | (option, none) =>
        if Draft.takesValue option then
          match rest with
          | [] => none
          | value :: rest =>
            if isOption value then none else do readArgs (← d.value option value) rest
        else do
          readArgs (← d.flag option) rest
    else do
      readArgs (← d.operand arg) rest

namespace Options

/-- Nothing if the arguments are not understood. -/
def ofArgs? (args : List String) : Option Options := do
  let d ← readArgs {} args
  d.finish

def nameMode (o : Options) : NameMode := if o.sourceNames then .display else .resolved

def stages (o : Options) : List Stage :=
  match o.stage with
  | some stage => [stage]
  | none => Stage.all

end Options

end LetStack.CommandLine
