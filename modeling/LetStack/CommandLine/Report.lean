import LetStack.CommandLine.Options
import LetStack.Compilation
import LetStack.Program.Printer
import LetStack.Text.Blank

namespace LetStack.CommandLine

/-- Work that shows text as it goes; an error keeps what was shown before it. -/
abbrev Display := EStateM Error String

namespace Display

def ofExcept {α : Type} : Except Error α → Display α
  | .ok a => return a
  | .error e => throw e

/-- One section, under a title if there are several. -/
def put (o : Options) (stage : Stage) (body : String) : Display Unit :=
  let body := Text.trimEnd body ++ "\n"
  modify fun shown =>
    match o.stage with
    | some _ => shown ++ body
    | none => shown ++ s!"=== {stage.title} ===\n" ++ body ++ "\n"

def result (ty : Ty) (w : Word) : String :=
  match ty with
  | .num => w.text
  | .bool => if w = 0 then "false" else "true"

def build (o : Options) (b : Build) (stage : Stage) : Display Unit :=
  match stage with
  | .typecheck => put o stage b.ty.keyword
  | .lift => put o stage (b.program.render o.nameMode)
  | .codegen =>
    match b.unlinked with
    | some m => put o stage m.listing
    | none => return ()
  | .link => put o stage b.module.listing
  | .run => do
    let w ← ofExcept ((b.module.execute o.machine).mapError .machine)
    put o stage (result b.ty w)
  | .resolve | .eval => return ()

def stages (o : Options) (source : String) : Display Unit := do
  let e ← ofExcept ((parse source).mapError .parse)
  if .resolve ∈ o.stages then
    put o .resolve (e.resolve.render o.nameMode)
  if o.stages.any Stage.compiles then
    let b ← ofExcept (compile e true)
    o.stages.forM (build o b)
  if .eval ∈ o.stages then
    let v ← ofExcept (e.evaluate.mapError .eval)
    put o .eval v.text

end Display

/-- Why a file could not be used. -/
inductive ReadError where
  | notFound
  | notUtf8
  | other (reason : String)
deriving DecidableEq, Repr

def ReadError.reason : ReadError → String
  | notFound => "No such file or directory (os error 2)"
  | notUtf8 => "stream did not contain valid UTF-8"
  | other reason => reason

/-- What a run of the program answers: its exit code and the two texts it writes. -/
structure Report where
  exitCode : Nat
  stdout : String
  stderr : String
deriving DecidableEq, Repr

namespace Report

def usage : Report :=
  ⟨2, "", "usage: letstack (FILE | --expr EXPR) [--stage STAGE] [--source-names] " ++
    "[--stack-size WORDS] [--max-steps STEPS]\n"⟩

def failure (stdout reason : String) : Report := ⟨1, stdout, s!"error: {reason}\n"⟩

def ofSource (o : Options) (source : String) : Report :=
  match Display.stages o source "" with
  | .ok () shown => ⟨0, shown, ""⟩
  | .error e shown => failure shown e.message

def ofFile (o : Options) (path : String) (content : Except ReadError ByteArray) : Report :=
  let unreadable (e : ReadError) := failure "" s!"cannot read {path}: {e.reason}"
  match content with
  | .error e => unreadable e
  | .ok bytes =>
    match String.fromUTF8? bytes with
    | none => unreadable .notUtf8
    | some source => ofSource o source

end Report

end LetStack.CommandLine
