import ExamMarkup.Text.Basic

/-!
# Files

What stands at each path, as far as a run of the program needs to know it, and the forms of paths.
-/

namespace ExamMarkup

/-- What a path leads to. A regular file that is not UTF-8 is undecodable; the null device is not a
regular file and holds nothing. -/
inductive FileState where
  | missing
  | belowFile
  | nameTooLong
  | directory
  | nullDevice
  | undecodable
  | text (content : Text)
  deriving DecidableEq, Repr

abbrev Files := Text → FileState

namespace Files

def parts (path : Text) : List Text := Text.split '/' path

/-- Whether a part leads to where one already is. -/
def isIdle (part : Text) : Bool := part == [] || part == ['.']

def upward : Text := ['.', '.']

/-- A path without idle parts at its end; nothing is left of one that has no other parts. -/
def bare (path : Text) : Text :=
  Text.join '/' ((parts path).reverse.dropWhile isIdle).reverse

def fileName? (path : Text) : Option Text :=
  (((parts path).reverse.dropWhile isIdle).head?).filter (· != upward)

/-- The extension of a path: what follows the last point of its file name, unless that point is the
name's first character. -/
def extension? (path : Text) : Option Text :=
  (fileName? path).bind fun name =>
    let after := (name.reverse.takeWhile (· != '.')).reverse
    if after.length + 1 < name.length then some after else none

def stem (path : Text) : Text :=
  match extension? path with
  | some extension => (bare path).take ((bare path).length - (extension.length + 1))
  | none => bare path

def replaceExtension? (extension path : Text) : Option Text :=
  (fileName? path).map fun _ => stem path ++ ['.'] ++ extension

def placeholder : Text := ".placeholder".toList

/-- A path with an extension added to the one it has. The placeholder is what gives way to the added
extension; behind idle parts it is a file name of its own and stays. -/
def addExtension? (extension path : Text) : Option Text :=
  replaceExtension? extension (if (extension? path).isSome then path ++ placeholder else path)

def partLimit : Nat := 255

def pathLimit : Nat := 4096

abbrev Tree := List (List Text × Text)

/-- A place reached on a path: below the top of a tree, at a directory somewhere above it, or below
the root of the file system. -/
inductive Place where
  | within (parts : List Text)
  | above
  | system (parts : List Text)
  deriving DecidableEq

namespace Place

def up : Place → Place
  | within [] => above
  | within parts => within parts.dropLast
  | above => above
  | system parts => system parts.dropLast

/-- The place of a name in a directory; none where nothing is known of what the directory holds. -/
def down (name : Text) : Place → Option Place
  | within parts => some (within (parts ++ [name]))
  | above => none
  | system parts => some (system (parts ++ [name]))

end Place

def systemDirectories : List Text :=
  ["bin", "dev", "etc", "home", "lib", "opt", "proc", "root", "run", "sbin", "sys", "tmp", "usr",
    "var"].map String.toList

def systemState (parts : List Text) : FileState :=
  match parts with
  | [] => .directory
  | [name] => if systemDirectories.contains name then .directory else .missing
  | parts => if parts = ["dev".toList, "null".toList] then .nullDevice else .missing

/-- What stands at a place. Below the top of the tree a directory is a place that a file lies below,
or the top itself. -/
def Tree.stateAt (tree : Tree) : Place → FileState
  | .within place =>
    match tree.lookup place with
    | some content => .text content
    | none =>
      if place.isEmpty || tree.any fun (path, _) => place.isPrefixOf path then .directory
      else .missing
  | .above => .directory
  | .system parts => systemState parts

/-- The state at the end of a path that is followed part by part from a place. Only directories are
passed through. -/
def Tree.follow (tree : Tree) (place : Place) : List Text → FileState
  | [] => tree.stateAt place
  | part :: rest =>
    match tree.stateAt place with
    | .directory =>
      if isIdle part then tree.follow place rest
      else if part = upward then tree.follow place.up rest
      else if partLimit < Text.byteSize part then .nameTooLong
      else
        match place.down part with
        | some place => tree.follow place rest
        | none => .missing
    | .missing => .missing
    | _ => .belowFile

def ofList (files : List (Text × Text)) : Files := fun path =>
  let tree : Tree := files.map fun (path, content) =>
    ((parts path).filter fun part => !isIdle part, content)
  if path = [] then .missing
  else if pathLimit ≤ Text.byteSize path then .nameTooLong
  else tree.follow (if path.head? = some '/' then .system [] else .within []) (parts path)

def isRegular (files : Files) (path : Text) : Bool :=
  match files path with
  | .text _ => true
  | .undecodable => true
  | _ => false

def read (files : Files) (path : Text) : Except Text Text :=
  match files path with
  | .text content => .ok content
  | .nullDevice => .ok []
  | .missing => .error "No such file or directory (os error 2)".toList
  | .belowFile => .error "Not a directory (os error 20)".toList
  | .directory => .error "Is a directory (os error 21)".toList
  | .nameTooLong => .error "File name too long (os error 36)".toList
  | .undecodable => .error "stream did not contain valid UTF-8".toList

end Files

end ExamMarkup
