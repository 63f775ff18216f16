/-!
# Files and directories

What is found under a path: a file, something that cannot be read, or a directory of named entries.
A path that is not absolute leads from one tree to another.
Scripts are looked for in a directory by the extension of their names, in the order of the names
and depth first. Names are ordered by their characters, which is the order of their UTF-8 bytes.
-/

namespace NaturalDeduction

/-- What is found under a path. -/
inductive FileTree where
  | file (contents : ByteArray)
  /-- A file that is there and cannot be read, and why. -/
  | unreadable (message : String)
  | directory (entries : List (String × FileTree))

namespace FileTree

/-- Whether it is a directory. -/
def isDirectory : FileTree → Bool
  | directory _ => true
  | _ => false

/-- The path of an entry of a directory. -/
def joinPath (path name : String) : String :=
  if path.toList.getLast? = some '/' then path ++ name else path ++ "/" ++ name

/-- What follows the last dot of a name. A name without a dot has no extension, and neither has one
whose only dot is its first character. -/
def extension? (name : String) : Option String :=
  let reversed := name.toList.reverse
  match reversed.dropWhile (· != '.') with
  | [] => none
  | [_] => none
  | _ => some (String.ofList (reversed.takeWhile (· != '.')).reverse)

/-- Puts a tree at the place that the parts of a path lead to. Directories on the way are made where
there are none. -/
def insert (tree leaf : FileTree) : List String → FileTree
  | [] => leaf
  | part :: rest =>
    let entries := match tree with | directory entries => entries | _ => []
    let inner := ((entries.find? (·.1 == part)).map (·.2)).getD (.directory [])
    .directory (entries.filter (·.1 != part) ++ [(part, inner.insert leaf rest)])

/-- Follows the parts of a path. `outer` are the directories around the tree, the nearest first.
Only a directory can be followed further, even by an empty part. -/
def follow (tree : FileTree) (outer : List FileTree) : List String → Option FileTree
  | [] => some tree
  | part :: rest =>
    match tree with
    | directory entries =>
      if part = "" ∨ part = "." then tree.follow outer rest
      else if part = ".." then
        match outer with
        | parent :: outer => parent.follow outer rest
        | [] => none
      else
        match entries.find? (·.1 == part) with
        | some (_, inner) => inner.follow (tree :: outer) rest
        | none => none
    | _ => none

/-- What is found in a tree under a path that starts there. -/
def find? (tree : FileTree) (path : String) : Option FileTree :=
  if path.isEmpty || path.startsWith "/" then none else tree.follow [] (path.splitOn "/")

mutual

/-- The files with an extension in what is found under `path`, where `name` is its own name. -/
def scripts (wanted path name : String) : FileTree → List (String × FileTree)
  | directory entries =>
    let found := scriptsOf wanted path entries
    (found.mergeSort fun a b ↦ a.1 ≤ b.1).flatMap (·.2)
  | f => if extension? name = some wanted then [(path, f)] else []

/-- The files with an extension in each entry of the directory at `path`. -/
def scriptsOf (wanted path : String) :
    List (String × FileTree) → List (String × List (String × FileTree))
  | [] => []
  | (name, tree) :: rest =>
    (name, scripts wanted (joinPath path name) name tree) :: scriptsOf wanted path rest

end

/-- The text of a file. -/
def text : FileTree → Except String String
  | file contents =>
    match String.fromUTF8? contents with
    | some text => .ok text
    | none => .error "stream did not contain valid UTF-8"
  | unreadable message => .error message
  | directory _ => .error "is a directory"

end FileTree

end NaturalDeduction
