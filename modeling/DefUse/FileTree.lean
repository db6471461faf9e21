import DefUse.Text.Order
import DefUse.Text.Split

/-!
# File trees

A file tree is a finite tree of directories and files.  A file carries the outcome of reading it: its
bytes, or the fault that the system answers with.  The entries of a directory have different names;
their order carries no meaning, and a walk goes through them in the order of the bytes of their names.
The files in a directory are the regular ones: a walk passes over links and special files, so a tree
does not hold them.

- `insert` adds a file or a directory and the directories on the way to it;
- `resolve` follows a path, from the root of the tree or from the working directory;
- `walk` lists the files below a node.

Names and paths are texts.  A file system may also have names that are no UTF-8, and nothing is said
about those here: a file whose extension is no text has no wanted extension, and a path that is no
text is shown with replacement characters, but neither can be written as a `String`.
-/

namespace DefUse

/-- Why there are no bytes to read. -/
inductive AccessFault where
  /-- There is no such entry. -/
  | notFound
  /-- The path goes on behind a file. -/
  | notDirectory
  /-- Any other fault of the system, such as a missing permission or a broken device. -/
  | system (message : String)
deriving DecidableEq

/-- The outcome of reading a file or a stream. -/
abbrev Content := Except AccessFault ByteArray

/-- A file or a directory. -/
inductive Node where
  | file (content : Content)
  | directory (entries : List (String × Node))

namespace Node

def emptyDirectory : Node := directory []

/-- The entries of a directory; none for a file. -/
def entries : Node → List (String × Node)
  | file _ => []
  | directory es => es

/-- Puts `leaf` at the end of a path below `root`.  An empty directory changes nothing where there
is a directory already. -/
def insert (root : Node) (path : List String) (leaf : Node) : Node :=
  match path with
  | [] =>
    match leaf, root with
    | directory [], directory es => directory es
    | _, _ => leaf
  | name :: rest =>
    match root.entries.lookup name with
    | none => directory (root.entries ++ [(name, emptyDirectory.insert rest leaf)])
    | some child =>
      directory (root.entries.map fun e =>
        if e.1 = name then (name, child.insert rest leaf) else e)

/-! ## Walks -/

/-- Joins what was found below the entries of a directory, in the order of their names, with the
name put in front of each path. -/
def gather {α : Type} (found : List (String × List (List String × α))) :
    List (List String × α) :=
  (found.mergeSort fun a b => Text.nameLE a.1 b.1).flatMap fun (name, files) =>
    files.map fun (path, a) => (name :: path, a)

mutual

/-- The files at or below a node, each with the names on the way to it. -/
def walk : Node → List (List String × Content)
  | file content => [([], content)]
  | directory es => gather (walkEntries es)

/-- The files below each entry. -/
def walkEntries : List (String × Node) → List (String × List (List String × Content))
  | [] => []
  | (name, node) :: rest => (name, node.walk) :: walkEntries rest

end

end Node

/-! ## Paths -/

namespace Path

/-- The names on a path. -/
def names (path : String) : List String :=
  (Text.splitText '/' path).filter (· ≠ "")

/-- The steps of a path; a slash at the end asks for a directory. -/
def steps (path : String) : List String :=
  names path ++ if path.toList.getLast? = some '/' then ["."] else []

/-- Takes the steps from `node`, whose ancestors are `up`, the nearest first.  The top of the tree
is its own parent. -/
def follow (up : List Node) (node : Node) : List String → Except AccessFault Node
  | [] => .ok node
  | step :: rest =>
    match node with
    | .file _ => .error .notDirectory
    | .directory es =>
      if step = "." then follow up node rest
      else if step = ".." then
        match up with
        | [] => follow [] node rest
        | parent :: above => follow above parent rest
      else
        match es.lookup step with
        | none => .error .notFound
        | some child => follow (node :: up) child rest

/-- Whether a path starts at the root. -/
def isAbsolute (path : String) : Bool := path.toList.head? = some '/'

/-- What stands at a path of the tree below `root`.  The names `here` lead from the root to the
working directory, where a path starts that does not start at the root.  The empty path leads
nowhere. -/
def resolve (root : Node) (here : List String) (path : String) : Except AccessFault Node :=
  if path = "" then .error .notFound
  else follow [] root ((if isAbsolute path then [] else here) ++ steps path)

/-- The path that goes on from `path` along `below`. -/
def extend (path : String) (below : List String) : String :=
  path ++ (if path.toList.getLast? = some '/' then "" else "/") ++ "/".intercalate below

/-- The extension of a file name: what follows its last dot, unless that dot is the first
character. -/
def extension? (name : String) : Option String :=
  let reversed := name.toList.reverse
  match reversed.dropWhile (· != '.') with
  | [] => none
  | [_] => none
  | _ => some (String.ofList (reversed.takeWhile (· != '.')).reverse)

end Path

end DefUse
