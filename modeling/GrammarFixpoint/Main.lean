import GrammarFixpoint.CommandLine.Report

/-! The program: it reads the source that the arguments name and prints the report. -/

namespace GrammarFixpoint.CommandLine

/-- The system gives the code of an error as it is or negated. -/
def isCode (expected code : UInt32) : Bool := code == expected || code + expected == 0

def ReadError.ofSystem (e : IO.Error) : ReadError :=
  match e with
  | .noFileOrDirectory .. => noSuchFile
  | .inappropriateType _ code _ => if isCode 20 code then notDirectory else isDirectory
  | .invalidArgument _ code _ => if isCode 36 code then nameTooLong else other (toString e)
  | e => other (toString e)

def readBytes : Source → IO ByteArray
  | .standardInput => do (← IO.getStdin).readBinToEnd
  | .file path => IO.FS.readBinFile path

def readSource (source : Source) : IO (Except ReadError String) := do
  try
    return decode (← readBytes source)
  catch e => return .error (.ofSystem e)

def Report.print (report : Report) : IO UInt32 := do
  (← IO.getStdout).putStr report.stdout
  (← IO.getStderr).putStr report.stderr
  return report.code.toUInt32

end GrammarFixpoint.CommandLine

open GrammarFixpoint.CommandLine

def main (arguments : List String) : IO UInt32 := do
  match Command.ofArguments? arguments with
  | some (.analyse invocation) =>
    (invocation.report (← readSource invocation.source)).print
  | _ =>
    let helpText (_ : HelpForm) := "Usage: cfgtrace [OPTIONS] <INPUT>\n"
    (run arguments { files := [], standardInput := .empty, helpText }).print
