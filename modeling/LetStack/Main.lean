import LetStack.CommandLine.Report

namespace LetStack.CommandLine

def readFile (path : String) : IO (Except ReadError ByteArray) := do
  try
    return .ok (← IO.FS.readBinFile path)
  catch
    | .noFileOrDirectory .. => return .error .notFound
    | e => return .error (.other (toString e))

def report (args : List String) : IO Report := do
  match Options.ofArgs? args with
  | none => return .usage
  | some o =>
    match o.input with
    | .expression source => return .ofSource o source
    | .file path => return .ofFile o path (← readFile path)

end LetStack.CommandLine

def main (args : List String) : IO UInt32 := do
  let report ← LetStack.CommandLine.report args
  (← IO.getStdout).putStr report.stdout
  (← IO.getStderr).putStr report.stderr
  return report.exitCode.toUInt32
