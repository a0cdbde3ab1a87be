/-! Paths. A path is walked part by part from the working directory, or from the
root where it begins with a slash. Of all directories only the working directory
is known to hold anything, and no name leads from another one back to it, so it
is enough to tell these apart: the working directory, some other directory, and
a file, behind which no path goes on. -/

namespace GrammarFixpoint.CommandLine

/-- Why a path leads to no bytes, or its bytes to no text. -/
inductive ReadError where
  | noSuchFile
  | notDirectory
  | isDirectory
  | nameTooLong
  | notUtf8
  /-- Any other cause, in the words of the system. -/
  | other (reason : String)
  deriving DecidableEq

def ReadError.message : ReadError → String
  | noSuchFile => "No such file or directory (os error 2)"
  | notDirectory => "Not a directory (os error 20)"
  | isDirectory => "Is a directory (os error 21)"
  | nameTooLong => "File name too long (os error 36)"
  | notUtf8 => "stream did not contain valid UTF-8"
  | other reason => reason

namespace Path

/-- The most bytes that one part of a path may have. -/
def nameLimit : Nat := 255

/-- The most bytes that a whole path may have. -/
def pathLimit : Nat := 4095

/-- Where a walk has come to. -/
inductive Place where
  | workingDirectory
  | otherDirectory
  | file (content : ByteArray)

/-- Follow one part. An empty part stands for the directory that it follows, as
a dot does, so a slash at the end asks for a directory. -/
def step (files : List (String × ByteArray)) (place : Place) (part : String) :
    Except ReadError Place :=
  match place, part with
  | .file _, _ => .error .notDirectory
  | place, "" | place, "." => .ok place
  | _, ".." => .ok .otherDirectory
  | place, name =>
    if nameLimit < name.utf8ByteSize then .error .nameTooLong
    else match place, files.lookup name with
      | .workingDirectory, some content => .ok (.file content)
      | _, _ => .error .noSuchFile

/-- Where a path leads. -/
def walk (files : List (String × ByteArray)) (path : String) : Except ReadError Place :=
  if pathLimit < path.utf8ByteSize then .error .nameTooLong
  else
    let text := path.toList
    let origin := if text.head? = some '/' then Place.otherDirectory else .workingDirectory
    ((text.splitOn '/').map String.ofList).foldlM (step files) origin

/-- The bytes of the file that a path leads to. -/
def read (files : List (String × ByteArray)) (path : String) : Except ReadError ByteArray :=
  match walk files path with
  | .error e => .error e
  | .ok (.file content) => .ok content
  | .ok _ => .error .isDirectory

end Path

end GrammarFixpoint.CommandLine
