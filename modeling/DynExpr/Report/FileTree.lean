import DynExpr.Text

/-!
# A tree of files

Files lie in directories, and a *path* leads to a place among them. It begins at the root if its
first byte is a slash, else at the home directory, and is followed part by part: each part but
the last must be a directory, an empty part and `.` stay where they are, and `..` goes up, the
root being above itself. A path is zero-terminated; it and its parts have limited lengths.

A device is a file that forgets what is written into it and keeps what is read from it.

* `FileTree.locate?` follows a path.
* `FileTree.read?` is what a reader of a path finds; a directory reads as empty.
* `FileTree.isWritable` tells whether a file can be written at a path.
* `FileTree.write` sets the contents of a file.
-/

namespace DynExpr

/-- The names on the way from the root to a file or a directory. -/
abbrev Place := List Text

/-- Files and devices, with what can be read from them, and directories that need no file to
exist. -/
structure FileTree where
  home : Place
  directories : List Place
  files : List (Place × Text)
  devices : List (Place × Text)

namespace FileTree

/-! ### Places -/

/-- The most bytes that a path may have. -/
def longestPath : Nat := 4095

/-- The most bytes that a part of a path may have. -/
def longestPart : Nat := 255

/-- The parts of a path between slashes. -/
def parts : Text → List Text
  | [] => [[]]
  | b :: rest =>
    if b == 47 then [] :: parts rest
    else
      match parts rest with
      | part :: others => (b :: part) :: others
      | [] => [[b]]

/-- A part that does not move. -/
def isStay (part : Text) : Bool := part.isEmpty || part == utf8 "."

/-- A directory is the home directory or another one that needs no file, or lies above one of
them, or has a file or a device below it. -/
def isDirectory (tree : FileTree) (place : Place) : Bool :=
  (tree.home :: tree.directories).any place.isPrefixOf ||
    (tree.files ++ tree.devices).any fun file =>
      place.length < file.1.length && place.isPrefixOf file.1

/-- There is a device at a place. -/
def isDevice (tree : FileTree) (place : Place) : Bool := tree.devices.any (·.1 == place)

/-- Follows one part of a path. -/
def step (tree : FileTree) (place : Place) (part : Text) : Option Place :=
  if !tree.isDirectory place || longestPart < part.length then none
  else if isStay part then some place
  else if part == utf8 ".." then some place.dropLast
  else some (place ++ [part])

/-- The place that a path leads to. -/
def locate? (tree : FileTree) (path : Text) : Option Place :=
  let path := path.beforeZero
  if path.isEmpty || longestPath < path.length then none
  else (parts path).foldlM tree.step (if path.head? == some 47 then [] else tree.home)

/-! ### Contents -/

/-- The contents at a path; nothing if the path cannot be opened. -/
def read? (tree : FileTree) (path : Text) : Option Text :=
  match tree.locate? path with
  | none => none
  | some place =>
    if tree.isDirectory place then some [] else (tree.devices ++ tree.files).lookup place

/-- A file can be written at a path. -/
def isWritable (tree : FileTree) (path : Text) : Bool :=
  (tree.locate? path).any fun place => !tree.isDirectory place

/-- Sets the contents of the file at a place. -/
def put (tree : FileTree) (place : Place) (contents : Text) : FileTree :=
  { tree with files := (place, contents) :: tree.files.filter fun file => file.1 != place }

/-- Sets the contents of the file at a path that is writable. -/
def write (tree : FileTree) (path contents : Text) : FileTree :=
  match tree.locate? path with
  | none => tree
  | some place =>
    if tree.isDirectory place || tree.isDevice place then tree else tree.put place contents

/-! ### Trees -/

/-- The names of the directories at the root. -/
def rootNames : List String :=
  ["bin", "dev", "etc", "home", "lib", "proc", "root", "tmp", "usr", "var"]

/-- The names of the devices that swallow what is written into them. -/
def sinkNames : List String := ["full", "null", "zero"]

/-- The place of a device. -/
def device (name : String) : Place := [utf8 "dev", utf8 name]

/-- A tree without files. -/
def empty : FileTree where
  home := [utf8 "tmp", utf8 "work"]
  directories := rootNames.map fun name => [utf8 name]
  files := []
  devices := sinkNames.map fun name => (device name, [])

/-- A tree with a device from which the standard input is read. -/
def withStandardInput (tree : FileTree) (text : Text) : FileTree :=
  { tree with devices := (device "stdin", text) :: tree.devices }

/-- The tree of files with the given paths below the home directory. Their directories exist
with them, and of two files at one place the later one remains. -/
def ofFiles (files : List (Text × Text)) : FileTree :=
  files.foldl (fun tree file =>
    tree.put (tree.home ++ (parts file.1.beforeZero).filter (!isStay ·)) file.2) empty

end FileTree

end DynExpr
