import LispCore.FileTree
import LispCore.Reader.Program
import LispCore.Text.Newline

/-!
Program files: where they are looked for and how they are read. A program is a file of its own name,
or one below a directory of the search path, where a name without a suffix gets the suffix of
programs. The first file in this order is the one. Its bytes are read strictly as UTF-8.
-/

namespace LispCore

/-- The directories that a list separated by colons names. Blanks around a name do not count, and
blank names are left out; without any list the defaults are taken. -/
def searchPath (list : Option String) (defaults : List Path) : List Path :=
  match list.getD "" with
  | "" => defaults
  | text =>
    let names := (Text.splitOn ':' text.toList).map Text.trim
    (names.filter (· ≠ [])).map fun name => .ofText (String.ofList name)

/-- Where programs are looked for. -/
structure SourceRoots where
  files : FileSystem
  list : Option String := none
deriving Inhabited

/-- Why a program was not read at all. -/
inductive LoadError where
  | noFinalComponent
  | notFound (name : String)
  | notUtf8 (path : Path)
  | stopped (e : Failure)

/-- The message, unless the host reports the error in words of its own. -/
def LoadError.message? : LoadError → Option String
  | notFound name => some ("Cannot find program '" ++ name ++ "' in CLOVE_PATH")
  | stopped e => e.message?
  | noFinalComponent | notUtf8 _ => none

/-- The suffix of programs. -/
def sourceSuffix : String := ".lisp"

namespace SourceRoots

/-- The directories of the search path, which by default is the working directory. -/
def directories (roots : SourceRoots) : List Path :=
  searchPath roots.list [roots.files.workingPath]

/-- The file that a program name stands for, if there is one. -/
def resolve (roots : SourceRoots) (name : String) : Except LoadError (Option Path) :=
  let path := Path.ofText name
  if roots.files.isFile path then .ok (some path)
  else
    match path.withDefaultSuffix? sourceSuffix with
    | none => .error .noFinalComponent
    | some rel => .ok ((roots.directories.map (·.join rel)).find? roots.files.isFile)

/-- The text of a program, its line ends being line feeds. -/
def text (roots : SourceRoots) (name : String) : Except LoadError String := do
  let some path ← roots.resolve name | throw (.notFound name)
  match (roots.files.contents? path).bind String.fromUTF8? with
  | none => throw (.notUtf8 path)
  | some text => pure (String.ofList (Text.normalizeNewlines text.toList))

/-- Reads a program. -/
def load (roots : SourceRoots) (name : String) (symbols : SymbolTable) :
    Except LoadError Reader.Parsed × SymbolTable :=
  match roots.text name with
  | .error e => (.error e, symbols)
  | .ok text =>
    match (Reader.ofText text symbols).parseAll with
    | (.ok parsed, r) => (.ok parsed, r.symbols)
    | (.error e, r) => (.error (.stopped e), r.symbols)

end SourceRoots

end LispCore
