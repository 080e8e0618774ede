/-!
# Files by their paths

A path is a sequence of names between slashes and is followed from the working directory, or from the root if it starts
with a slash. A name has to be that of a folder if anything follows it, be it only a slash. `Folder.read` gives the text
of a file or tells why there is none.
-/

namespace Bracketing.Command

/-- Why a file cannot be read. -/
inductive FileError where
  | missing
  /-- A name on the way is that of a file. -/
  | notFolder
  /-- The path leads to a folder. -/
  | isFolder
  | nameTooLong
  /-- The path holds a character that no path has. -/
  | badPath
  deriving DecidableEq, Repr

/-- The message for a path that cannot be read. -/
def FileError.message (e : FileError) (path : String) : String :=
  match e with
  | missing => "open " ++ path ++ ": no such file or directory"
  | notFolder => "open " ++ path ++ ": not a directory"
  | isFolder => "read " ++ path ++ ": is a directory"
  | nameTooLong => "open " ++ path ++ ": file name too long"
  | badPath => "open " ++ path ++ ": invalid argument"

/-- Files by their paths, and folders that may hold none of them. -/
structure Folder where
  files : List (String × String) := []
  folders : List String := []

namespace Folder

/-- A place in the tree of folders: the names that lead to it, the last one first. The first name of a place below the
root is a slash, and a double dot stands for the parent of the folder to its right. -/
abbrev Place := List String

/-- The longest name, in bytes. -/
def nameLimit : Nat := 255

/-- The length that no path reaches, in bytes. -/
def pathLimit : Nat := 4096

/-- The place where a path starts, and its names. -/
def names (path : String) : Place × List String :=
  match path.splitOn "/" with
  | "" :: rest => (["/"], rest)
  | names => ([], names)

/-- The place one name further on. -/
def enter (p : Place) (name : String) : Place :=
  if name = "" || name = "." then p
  else if name = ".." then
    match p with
    | [] => [".."]
    | ["/"] => ["/"]
    | ".." :: rest => ".." :: ".." :: rest
    | _ :: rest => rest
  else name :: p

/-- The place that a path leads to, whatever is there. -/
def place (path : String) : Place :=
  let (start, names) := names path
  names.foldl enter start

/-- The text of the file at a place. -/
def fileAt? (f : Folder) (p : Place) : Option String :=
  (f.files.find? fun (path, _) => place path = p).map Prod.snd

/-- There is a folder at a place. -/
def isFolder (f : Folder) (p : Place) : Bool :=
  p.all (fun name => name = "/" || name = "..") ||
    (f.files.map Prod.fst ++ f.folders).any fun path => (place path).drop ((place path).length - p.length) = p &&
      (p.length < (place path).length || f.folders.contains path)

/-- Follows names from a place. -/
def follow (f : Folder) (p : Place) : List String → Except FileError Place
  | [] => .ok p
  | name :: rest =>
    if !f.isFolder p then .error .notFolder
    else if nameLimit < name.utf8ByteSize then .error .nameTooLong
    else
      let p := enter p name
      if (f.fileAt? p).isSome || f.isFolder p then follow f p rest else .error .missing

/-- The text of the file that a path leads to. -/
def read (f : Folder) (path : String) : Except FileError String :=
  if path.contains '\x00' then .error .badPath
  else if path = "" then .error .missing
  else if pathLimit ≤ path.utf8ByteSize then .error .nameTooLong
  else
    let (start, names) := names path
    match f.follow start names with
    | .error e => .error e
    | .ok p =>
      match f.fileAt? p with
      | some text => .ok text
      | none => .error .isFolder

end Folder

end Bracketing.Command
