import Reckoner.Source.Bytes
import Reckoner.Text.Split

/-!
# File trees

A file system as a tree, and how a path finds its way through it: from the root if it starts with a
slash, else from the working directory; an empty component or a dot stays, two dots go up, and only
a directory can be gone through. A directory opens like a file, but reading it fails.
-/

namespace Reckoner

/-- A file with its content, or a directory with its entries. -/
inductive FileTree where
  | file (content : List UInt8)
  | directory (entries : List (String × FileTree))

namespace FileTree

/-- The entry of a directory under a name. -/
def entry? (name : String) : FileTree → Option FileTree
  | file _ => none
  | directory entries => (entries.find? (·.1 = name)).map Prod.snd

/-- Whether the node is a directory. -/
def isDirectory : FileTree → Bool
  | file _ => false
  | directory _ => true

/-- Follows the components of a path from `here`, below the directories `above`, the nearest of them
first. The root is its own parent. -/
def walk (above : List FileTree) (here : FileTree) : List String → Option FileTree
  | [] => some here
  | name :: rest =>
    if !here.isDirectory then none
    else if name = "" || name = "." then walk above here rest
    else if name = ".." then
      match above with
      | [] => walk [] here rest
      | parent :: above => walk above parent rest
    else
      match here.entry? name with
      | none => none
      | some node => walk (here :: above) node rest

/-- The components of a path. -/
def components (path : String) : List String :=
  (Text.split '/' path.toList).map String.ofList

/-- The node at a path, with the working directory given by its own path from the root. The empty
path names nothing. -/
def find? (root : FileTree) (workingDirectory path : String) : Option FileTree :=
  if path = "" then none
  else if path.toList.head? = some '/' then walk [] root (components path)
  else walk [] root (components workingDirectory ++ components path)

/-- The characters of a node. -/
def source : FileTree → Source
  | file content => .ofBytes content
  | directory _ => .ofListThen [] (.failed .ioError)

/-- Opens the node at a path. -/
def openAt? (root : FileTree) (workingDirectory path : String) : Option Source :=
  (root.find? workingDirectory path).map source

/-- Replaces what is under a name in a directory's entries, or adds it. -/
def setEntry (name : String) (node : FileTree) (entries : List (String × FileTree)) :
    List (String × FileTree) :=
  (name, node) :: entries.filter (·.1 ≠ name)

/-- The tree with a node put at a path from here, and directories made on the way. -/
def put (node : FileTree) : List String → FileTree → FileTree
  | [], _ => node
  | name :: rest, here =>
    if name = "" || name = "." then put node rest here
    else
      let entries := match here with
        | file _ => []
        | directory entries => entries
      let below := (here.entry? name).getD (directory [])
      directory (setEntry name (put node rest below) entries)

end FileTree

end Reckoner
