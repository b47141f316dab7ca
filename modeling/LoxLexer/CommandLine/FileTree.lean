import LoxLexer.CommandLine.Outcome

/-!
# Files in a directory

A file tree lists files and directories by their paths below one directory; the directories on
the way to a path are there too. A path given as an argument is walked name by name, and only a
directory can be walked through. What lies outside the tree is a directory with no known names.
-/
namespace LoxLexer.CommandLine

namespace FileTree

inductive Entry
  | file (bytes : ByteArray)
  | directory

/-- Where a walk has come to: at a path inside the tree, or somewhere outside. -/
inductive Place
  | inside (path : List String)
  | outside

end FileTree

structure FileTree where
  entries : List (List String × FileTree.Entry)

namespace FileTree

def splitPath (path : String) : List String :=
  (path.toList.splitOn '/').map String.ofList

/-- Empty names and single dots in an entry's name do not count. -/
def ofNames (names : List (String × Entry)) : FileTree where
  entries := names.map fun e => ((splitPath e.1).filter fun part => part != "" && part != ".", e.2)

/-- What stands at a path inside the tree. -/
def lookup? (tree : FileTree) (path : List String) : Option Entry :=
  match tree.entries.find? fun e => e.1 == path with
  | some e => some e.2
  | none =>
    if path = [] ∨ tree.entries.any fun e => path.isPrefixOf e.1 then some .directory else none

def Place.isFile (tree : FileTree) : Place → Bool
  | inside path =>
    match tree.lookup? path with
    | some (.file _) => true
    | _ => false
  | outside => false

def step (tree : FileTree) (place : Place) (name : String) : Except ReadFailure Place :=
  if place.isFile tree then .error .notDirectory
  else if name = "" ∨ name = "." then .ok place
  else
    match place with
    | .inside path =>
      if name = ".." then .ok (if path = [] then .outside else .inside path.dropLast)
      else if (tree.lookup? (path ++ [name])).isSome then .ok (.inside (path ++ [name]))
      else .error .notFound
    | .outside => if name = ".." then .ok .outside else .error .notFound

/-- The place that a path names, starting in the tree's directory. -/
def walk (tree : FileTree) (path : String) : Except ReadFailure Place :=
  (splitPath path).foldlM tree.step
    (if path.toList.head? = some '/' then Place.outside else Place.inside [])

/-- The text of the file that a path names. -/
def read (tree : FileTree) (path : String) : Except ReadFailure String :=
  match tree.walk path with
  | .error failure => .error failure
  | .ok .outside => .error .isDirectory
  | .ok (.inside path) =>
    match tree.lookup? path with
    | some (.file bytes) =>
      match String.fromUTF8? bytes with
      | some source => .ok source
      | none => .error .notUtf8
    | some .directory => .error .isDirectory
    | none => .error .notFound

end FileTree

end LoxLexer.CommandLine
