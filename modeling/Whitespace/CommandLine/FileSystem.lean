import Whitespace.CommandLine.Failure

/-!
# File systems

Nothing is known of the file system that a command works on but what it promises:
what is written to a file is read from it, and no other file is touched
(`LawfulFileSystem`).

A tree of files (`FileTree`) is a file system that can be computed with.  Its
places are given by the names that lead to them from the root, the last one first.
-/

namespace Whitespace.CommandLine

/-- What is opened like a file but stands for something else. -/
inductive Device where
  /-- Holds nothing and takes in everything. -/
  | null
  /-- Holds zeros without end and takes in nothing. -/
  | full
  | input
  | output
  | errors
  deriving DecidableEq, Repr

/-- What is behind a path that could be opened. -/
inductive Opened (α : Type) where
  | file (file : α)
  | device (device : Device)
  deriving DecidableEq, Repr

/-- A file system whose files, all together, are a value of type `F`. -/
class FileSystem (F : Type) where
  /-- Opens the file of a path and reads it to its end. -/
  read : F → String → Except FileError (Opened (List UInt8))
  /-- Creates the file of a path, or empties it.  What becomes of the files is known
  once the file is written, which may fail halfway. -/
  create : F → String → Except FileError (Opened (List UInt8 → Except FileError Unit × F))
  /-- Two paths lead to one file, which need not exist. -/
  SameFile : F → String → String → Prop

/-- What a file system promises.  A file that cannot be opened, or is only read,
leaves all files as they are, since no others are returned. -/
class LawfulFileSystem (F : Type) [FileSystem F] : Prop where
  sameFile_refl (files : F) (path : String) : FileSystem.SameFile files path path
  /-- What was written to a file is what is read from it, whatever path leads there. -/
  read_of_sameFile {files after : F} {path other : String} {content : List UInt8}
    {write : List UInt8 → Except FileError Unit × F}
    (created : FileSystem.create files path = .ok (.file write))
    (written : write content = (.ok (), after))
    (same : FileSystem.SameFile files path other) :
    FileSystem.read after other = .ok (.file content)
  /-- Writing to a file, even without success, touches no other file. -/
  read_of_not_sameFile {files : F} {path other : String}
    {write : List UInt8 → Except FileError Unit × F}
    (created : FileSystem.create files path = .ok (.file write))
    (differ : ¬ FileSystem.SameFile files path other) (content : List UInt8) :
    (FileSystem.read (write content).2 other).toOption =
      (FileSystem.read files other).toOption

/-! ## Trees of files -/

/-- What is at a place. -/
inductive Entry where
  | directory
  | opened (opened : Opened (List UInt8))
  deriving DecidableEq, Repr

/-- What is at places of every system: the directories below the root and, in one
of them, the devices. -/
def systemEntries : List (List String × Entry) :=
  (["bin", "boot", "dev", "etc", "home", "lib", "lib64", "media", "mnt", "opt", "proc", "root",
    "run", "sbin", "srv", "sys", "tmp", "usr", "var"].map fun name => ([name], .directory)) ++
  [("null", .null), ("full", .full), ("stdin", .input), ("stdout", .output),
    ("stderr", .errors)].map fun (name, device) => ([name, "dev"], .opened (.device device))

/-- Files in directories, as they are seen from one of these. -/
structure FileTree where
  /-- The files of the directory, by their names. -/
  files : List (String × List UInt8) := []
  /-- The place of the directory. -/
  location : List String := ["work", "tmp"]
  /-- What there is besides, and what was written since.  It prevails over `files`. -/
  others : List (List String × Entry) := systemEntries
  deriving DecidableEq, Repr, Inhabited

def nameLimit : Nat := 255

def pathLimit : Nat := 4095

/-- Where a path leads. -/
inductive Destination where
  | directory
  /-- A name in the directory of a place; whether it has to be one of a directory. -/
  | name (place : List String) (text : String) (directory : Bool)
  deriving DecidableEq, Repr

namespace FileTree

def entries (t : FileTree) : List (List String × Entry) :=
  t.others ++ t.files.map fun (name, content) => (name :: t.location, .opened (.file content))

/-- What is at a place, if anything.  The way from the root to the directory that the
tree is seen from leads through directories. -/
def lookup (t : FileTree) (place : List String) : Option Entry :=
  if place.isSuffixOf t.location then some .directory else t.entries.lookup place

/-- The content of a file of the directory. -/
def find? (t : FileTree) (name : String) : Option (List UInt8) :=
  match t.lookup (name :: t.location) with
  | some (.opened (.file content)) => some content
  | _ => none

def insert (t : FileTree) (place : List String) (content : List UInt8) : FileTree :=
  { t with others := (place, .opened (.file content)) :: t.others }

/-- Follows the parts of a path from the directory of a place. -/
def follow (t : FileTree) (place : List String) : List String → Except FileError Destination
  | [] => .ok .directory
  | part :: rest =>
    if part = "" ∨ part = "." then t.follow place rest
    else if part = ".." then t.follow place.tail rest
    else if rest.all (· = "") then .ok (.name place part !rest.isEmpty)
    else if nameLimit < part.utf8ByteSize then .error .nameTooLong
    else
      match t.lookup (part :: place) with
      | some .directory => t.follow (part :: place) rest
      | some _ => .error .notADirectory
      | none => .error .notFound

/-- Where a path leads.  One that begins with a slash starts from the root. -/
def locate (t : FileTree) (path : String) : Except FileError Destination :=
  if path = "" then .error .notFound
  else if pathLimit < path.utf8ByteSize then .error .nameTooLong
  else
    match (path.toList.splitOn '/').map String.ofList with
    | "" :: rest => t.follow [] rest
    | parts => t.follow t.location parts

def readAt (t : FileTree) : Destination → Except FileError (Opened (List UInt8))
  | .directory => .error .isADirectory
  | .name place text directory =>
    if nameLimit < text.utf8ByteSize then .error .nameTooLong
    else
      match t.lookup (text :: place) with
      | none => .error .notFound
      | some .directory => .error .isADirectory
      | some (.opened opened) => if directory then .error .notADirectory else .ok opened

/-- A file can be created in every directory, and has room for everything. -/
def createAt (t : FileTree) :
    Destination → Except FileError (Opened (List UInt8 → Except FileError Unit × FileTree))
  | .directory | .name _ _ true => .error .isADirectory
  | .name place text false =>
    if nameLimit < text.utf8ByteSize then .error .nameTooLong
    else
      match t.lookup (text :: place) with
      | some .directory => .error .isADirectory
      | some (.opened (.device device)) => .ok (.device device)
      | _ => .ok (.file fun content => (.ok (), t.insert (text :: place) content))

instance : FileSystem FileTree where
  read t path := t.locate path >>= t.readAt
  create t path := t.locate path >>= t.createAt
  SameFile t path other := t.locate path = t.locate other

end FileTree

end Whitespace.CommandLine
