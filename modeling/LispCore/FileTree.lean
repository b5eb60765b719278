import LispCore.Path

/-!
File trees: directories with files in them, and what a path leads to. A path is followed component
by component, so that two dots lead up from a directory only when it is there.
-/

namespace LispCore

/-- A file with its contents, or a directory with the entries in it. -/
inductive FileTree where
  | file (contents : ByteArray)
  | directory (entries : List (String × FileTree))

namespace FileTree

instance : Inhabited FileTree := ⟨.directory []⟩

/-- What a directory holds under a name. -/
def child? (name : String) : FileTree → Option FileTree
  | file _ => none
  | directory entries => (entries.find? (·.1 == name)).map (·.2)

/-- The tree with a node at the end of some components; the directories on the way are made. A
directory that is there already keeps its entries. -/
def insert (node : FileTree) : List String → FileTree → FileTree
  | [], tree =>
    match node, tree with
    | directory [], directory entries => directory entries
    | _, _ => node
  | _ :: _, file contents => file contents
  | name :: names, directory entries =>
    let child := (entries.find? (·.1 == name)).map (·.2)
    let child := insert node names (child.getD (directory []))
    if entries.any (·.1 == name) then
      directory (entries.map fun (n, t) => (n, if n == name then child else t))
    else directory (entries ++ [(name, child)])

/-- The nodes that lead down to the end of some components, the last one first, starting below the
nodes in `above`. Two dots at the top stay there. -/
def walk (above : List FileTree) (node : FileTree) : List String → Option (List FileTree × FileTree)
  | [] => some (above, node)
  | name :: names =>
    match node with
    | file _ => none
    | directory entries =>
      if name = ".." then
        match above with
        | [] => walk [] node names
        | parent :: above => walk above parent names
      else
        match entries.find? (·.1 == name) with
        | none => none
        | some (_, child) => walk (node :: above) child names

end FileTree

/-- A tree with the directory in it that relative paths start from. -/
structure FileSystem where
  tree : FileTree
  workingDirectory : List String
deriving Inhabited

namespace FileSystem

/-- The path of the working directory. -/
def workingPath (fs : FileSystem) : Path := ⟨.root, fs.workingDirectory⟩

/-- What a path leads to. -/
def find? (fs : FileSystem) (p : Path) : Option FileTree :=
  (FileTree.walk [] fs.tree (fs.workingPath.join p).parts).map (·.2)

/-- The contents of the file that a path leads to. -/
def contents? (fs : FileSystem) (p : Path) : Option ByteArray :=
  match fs.find? p with
  | some (.file contents) => some contents
  | _ => none

/-- Whether a path leads to a file. -/
def isFile (fs : FileSystem) (p : Path) : Bool := (fs.contents? p).isSome

end FileSystem

end LispCore
