import Tapecraft.Config

/-! # Directories

A snapshot of the working directory, by the files and directories in it. A path is
resolved one component after the other, and every component but the last has to be a
directory. Nothing is known of what lies outside the working directory except that its
parents are directories.
-/
namespace Tapecraft

inductive FileNode where
  | file (bytes : ByteArray)
  | directory

/-- The nodes of the working directory by the components of their paths. The parents of a
node are there without being listed. -/
structure Directory where
  nodes : List (List String × FileNode)

namespace Directory

inductive Place where
  /-- Inside the working directory, by the components from there. -/
  | inside (components : List String)
  | outside

def node? (d : Directory) (components : List String) : Option FileNode :=
  if components.isEmpty then some .directory
  else
    match d.nodes.lookup components with
    | some n => some n
    | none => if d.nodes.any fun e => components.isPrefixOf e.1 then some .directory else none

def isDirectory (d : Directory) : Place → Bool
  | .outside => true
  | .inside components =>
    match d.node? components with
    | some .directory => true
    | _ => false

def maxName : Nat := 255

/-- The length that a whole path has to stay below, in bytes. -/
def pathBound : Nat := 4096

/-- Goes on from a place by the components of a path. An empty component, as between two
slashes, stays where it is. -/
def walk (d : Directory) : List String → Place → Except ReadError Place
  | [], place => .ok place
  | component :: rest, place =>
    if !d.isDirectory place then .error .notADirectory
    else if component = "" ∨ component = "." then walk d rest place
    else if component = ".." then
      match place with
      | .outside => walk d rest .outside
      | .inside [] => walk d rest .outside
      | .inside components => walk d rest (.inside components.dropLast)
    else if maxName < component.utf8ByteSize then .error .nameTooLong
    else
      match place with
      | .outside => .error .notFound
      | .inside components =>
        let next := components ++ [component]
        if (d.node? next).isSome then walk d rest (.inside next) else .error .notFound

def resolve (d : Directory) (path : String) : Except ReadError Place := do
  if '\x00' ∈ path.toList then throw .nulInName
  if path.isEmpty then throw .notFound
  if pathBound ≤ path.utf8ByteSize then throw .nameTooLong
  let components := (path.toList.splitOn '/').map String.ofList
  d.walk components (if path.toList.head? = some '/' then .outside else .inside [])

def read (d : Directory) (path : String) : Except ReadError String := do
  match ← d.resolve path with
  | .outside => throw .isADirectory
  | .inside components =>
    match d.node? components with
    | some (.file bytes) =>
      match String.fromUTF8? bytes with
      | some text => return text
      | none => throw .notText
    | _ => throw .isADirectory

def files (d : Directory) : Files where
  isThere path := (d.resolve path).toBool
  read := d.read

end Directory

end Tapecraft
