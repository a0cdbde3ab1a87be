import GrammarFixpoint.CommandLine.Arguments
import GrammarFixpoint.CommandLine.Path

/-! What a source holds. A grammar is text, so bytes that are no UTF-8 are as
much a failure to read as a file that is not there. -/

namespace GrammarFixpoint.CommandLine

def decode (bytes : ByteArray) : Except ReadError String :=
  match String.fromUTF8? bytes with
  | some text => .ok text
  | none => .error .notUtf8

/-- A working directory that holds nothing but files, by name, and standard input. -/
structure Surroundings where
  files : List (String × ByteArray)
  standardInput : ByteArray
  /-- What the argument parser says of the program when it is asked for help. -/
  helpText : HelpForm → String := fun _ => ""

def Surroundings.read (s : Surroundings) : Source → Except ReadError String
  | .standardInput => decode s.standardInput
  | .file path => (Path.read s.files path).bind decode

end GrammarFixpoint.CommandLine
