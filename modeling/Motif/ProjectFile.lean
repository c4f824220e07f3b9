import Motif.Options.Format
import Motif.Toml.Parser

/-!
# Project files

Options of a compilation can be kept in the table `compiler` of a document, usually in a file
`fate.toml` beside the sources or in a directory above them.
-/

namespace Motif

namespace Toml

def items? : Toml → Option (List Toml)
  | .array items => some items
  | .tables items => some (items.map (.table .header))
  | _ => none

def isEmpty : Toml → Bool
  | .array items => items.isEmpty
  | .table _ entries => entries.isEmpty
  | .tables items => items.isEmpty
  | _ => false

def text? : Toml → Option String
  | .string text => some text
  | _ => none

def bool? : Toml → Option Bool
  | .boolean b => some b
  | _ => none

def nat? : Toml → Option Nat
  | .integer n => n.toNat?
  | _ => none

def list? {α : Type} (read : Toml → Option α) (value : Toml) : Option (List α) :=
  value.items?.bind fun items => items.mapM read

/-- A pass, given by its name or as a table with the name as its only key and nothing under it. -/
def pass? : Toml → Option Pass
  | .string name => Pass.ofName? name
  | .table _ [(name, value)] => if value.isEmpty then Pass.ofName? name else none
  | _ => none

end Toml

namespace Options

/-- The options with these settings; what is not set has its default. -/
def ofSettings? (setting? : String → Option Toml) : Option Options := do
  let read {α : Type} (key : String) (reader : Toml → Option α) (default : α) : Option α :=
    match setting? key with
    | some value => reader value
    | none => some default
  let default : Options := {}
  return {
    passes := ← read "passes" (Toml.list? Toml.pass?) default.passes
    globals := ← read "globals" (Toml.list? Toml.text?) default.globals
    inlineStringLimit := ← read "inline-string-limit" Toml.nat? default.inlineStringLimit
    strictMode := ← read "strict-mode" Toml.bool? default.strictMode
    indent := ← read "indent" Toml.nat? default.indent }

/-- Options given as a table by their names, or as a list in the order of `keys`. Unknown names and
further items are passed over; a date sets nothing. -/
def ofToml? : Toml → Option Options
  | .table _ entries => ofSettings? fun key => Dict.get? key entries
  | .datetime _ => some {}
  | value => value.items?.bind fun items => ofSettings? fun key => Dict.get? key (keys.zip items)

def ofDocument? (text : String) : Option Options :=
  (Toml.parse? text).bind fun entries =>
    match Dict.get? "compiler" entries with
    | some value => ofToml? value
    | none => some {}

end Options

/-- Directories and files below some directory. Their places are lists of names. -/
structure FileTree where
  directories : List (List String) := []
  files : List (List String × String) := []
  deriving Repr, DecidableEq, Inhabited

namespace FileTree

def isBlank (name : String) : Bool := name == "" || name == "."

def names (path : String) : List String := (path.splitOn "/").filter fun name => !isBlank name

def place (path : String) : List String :=
  (names path).foldl (fun place name => if name == ".." then place.dropLast else place ++ [name]) []

/-- The text of a file. Of several files at one place the last one counts. -/
def text? (tree : FileTree) (place : List String) : Option String := Dict.get? place tree.files.reverse

/-- Whether a directory stands at a place: one of the given ones, or one on the way to something. -/
def isDirectory (tree : FileTree) (place : List String) : Bool :=
  place.isEmpty || tree.directories.any place.isPrefixOf ||
    tree.files.any fun file => place.isPrefixOf file.1 && place != file.1

def holds (tree : FileTree) (place : List String) : Bool :=
  tree.isDirectory place || (tree.text? place).isSome

/-- Where names lead from a place. All that is passed on the way has to be a directory, and nothing
is known of what lies outside. -/
def follow? (tree : FileTree) (place : List String) : List String → Option (List String)
  | [] => some place
  | name :: rest =>
    if !tree.isDirectory place then none
    else if name != ".." then tree.follow? (place ++ [name]) rest
    else if place.isEmpty then none
    else tree.follow? place.dropLast rest

def exists? (tree : FileTree) (path : List String) : Bool :=
  (tree.follow? [] (path.filter fun name => !isBlank name)).any tree.holds

/-- The text of the file that a path leads to. A path that ends in nothing leads to a directory. -/
def read? (tree : FileTree) (path : List String) : Option String :=
  if path.getLast?.all isBlank || path.head? == some "" then none
  else (tree.follow? [] (path.filter fun name => !isBlank name)).bind tree.text?

end FileTree

namespace ProjectFile

open FileTree (isBlank)

inductive Error where
  | unreadable
  | malformed
  deriving Repr, DecidableEq, Inhabited

def fileName : String := "fate.toml"

def loadParts (tree : FileTree) (path : List String) : Except Error Options :=
  match tree.read? path with
  | none => .error .unreadable
  | some text =>
    match Options.ofDocument? text with
    | some options => .ok options
    | none => .error .malformed

def load (tree : FileTree) (path : String) : Except Error Options := loadParts tree (path.splitOn "/")

/-- The path of the project file in a directory, which is given by the parts of its path from the
innermost outwards. Nothing at the beginning of a path is left out. -/
def pathIn (directory : List String) : List String := (directory.reverse.dropWhile isBlank) ++ [fileName]

def nearest? (tree : FileTree) : List String → Option (List String)
  | [] => if tree.exists? [fileName] then some [fileName] else none
  | name :: outer =>
    let path := pathIn (name :: outer)
    if !isBlank name && tree.exists? path then some path else nearest? tree outer

/-- The parts of a path from the innermost outwards. A slash at its end is no part of its own. -/
def outwards (path : String) : List String :=
  match (path.splitOn "/").reverse with
  | "" :: outer => outer
  | parts => parts

/-- The nearest project file and its options. The search begins in the directory at the end of a
path and ends at whatever has the file's name, also if it cannot be read. -/
def find (tree : FileTree) (start : String) : Except Error (Option (String × Options)) :=
  let parts := outwards start
  let isAbsolute := start.startsWith "/"
  let found := if tree.exists? (pathIn parts) then some (pathIn parts) else nearest? tree parts
  match if isAbsolute then none else found with
  | none => .ok none
  | some path => (loadParts tree path).map fun options => some ("/".intercalate path, options)

end ProjectFile

end Motif
