/-
  Stylesheet.CommandLine.Files — files, and how a path finds one.

  A path is its components between slashes. A tree is what stands below the working directory; above it, only
  directories are known.
-/

import Stylesheet.Text.Basic

namespace Stylesheet.CommandLine

inductive Entry where
  | missing
  | directory
  | file (bytes : List UInt8)

namespace Path

def components (path : Text) : List Text := path.splitOn '/'

def names (path : Text) : List Text := (components path).filter fun c => !(c == [] || c == ['.'])

/-- The slashes an absolute path keeps: two if it starts with exactly two, else one. -/
def root : Text → Text
  | '/' :: '/' :: '/' :: _ => ['/']
  | '/' :: '/' :: _ => ['/', '/']
  | '/' :: _ => ['/']
  | _ => []

/-- A path in its shortest spelling; steps up are kept. -/
def plain (path : Text) : Text :=
  match root path ++ List.intercalate ['/'] (names path) with
  | [] => ['.']
  | t => t

def last (path : Text) : Text := (names path).getLast?.getD []

end Path

structure FileTree where
  directories : List (List Text)
  files : List (List Text × List UInt8)

/-- Where a walk stands: below the working directory, with the names so far in reverse, or above it. -/
inductive Place where
  | below (names : List Text)
  | above

namespace FileTree

def file? (t : FileTree) (names : List Text) : Option (List UInt8) :=
  (t.files.reverse.find? (·.1 == names)).map (·.2)

/-- A directory is the working directory, a given one, or one on the way to a given directory or file. -/
def isDirectory (t : FileTree) (names : List Text) : Bool :=
  names.isEmpty || t.directories.any names.isPrefixOf || t.files.any fun f => names.isPrefixOf f.1 && names != f.1

/-- One step of a walk; only directories lead further. -/
def step (t : FileTree) (place : Place) (component : Text) : Option Place :=
  match place with
  | .above => if component == [] || component == ['.'] || component == ['.', '.'] then some .above else none
  | .below names =>
    if t.isDirectory names.reverse then
      if component == [] || component == ['.'] then some place
      else if component == ['.', '.'] then
        match names with
        | [] => some .above
        | _ :: outer => some (.below outer)
      else some (.below (component :: names))
    else none

def entry (t : FileTree) (path : Text) : Entry :=
  if path.isEmpty then .missing
  else
    let start := if path.head? == some '/' then Place.above else Place.below []
    match (Path.components path).foldlM t.step start with
    | none => .missing
    | some .above => .directory
    | some (.below names) =>
      if t.isDirectory names.reverse then .directory
      else
        match t.file? names.reverse with
        | some bytes => .file bytes
        | none => .missing

end FileTree

end Stylesheet.CommandLine
