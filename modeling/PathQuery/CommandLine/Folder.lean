import PathQuery.Source

/-! A folder of files with known contents, and what it means to read a path in it. -/

namespace PathQuery.CommandLine

inductive ReadError where
  | notFound
  | notADirectory
  | isADirectory
  | nameTooLong
  | notText
  | other (reason : String)
deriving DecidableEq, Repr

namespace ReadError

def message : ReadError → String
  | .notFound => "No such file or directory (os error 2)"
  | .notADirectory => "Not a directory (os error 20)"
  | .isADirectory => "Is a directory (os error 21)"
  | .nameTooLong => "File name too long (os error 36)"
  | .notText => "stream did not contain valid UTF-8"
  | .other reason => reason

end ReadError

/-- A folder: the paths of its files, with their contents. -/
structure Folder where
  files : List (List String × ByteArray)

namespace Folder

/-- The longest name in a path, in octets. -/
def maxName : Nat := 255

/-- The longest path, in octets. -/
def maxPath : Nat := 4095

def ofFiles (files : List (String × ByteArray)) : Folder :=
  ⟨files.map fun (path, content) => (FileName.components path, content)⟩

/-- The content of a file. Of two files with one path the later holds. -/
def content? (folder : Folder) (path : List String) : Option ByteArray :=
  folder.files.reverse.lookup path

def isDirectory (folder : Folder) (path : List String) : Bool :=
  path.isEmpty || folder.files.any fun file => path.isPrefixOf file.1

/-- Follows names from a directory outside of the folder, where nothing has a name. -/
def followOutside : List String → Except ReadError ByteArray
  | [] => .error .isADirectory
  | ".." :: names => followOutside names
  | name :: _ => .error (if maxName < name.utf8ByteSize then .nameTooLong else .notFound)

/-- Follows names from a place inside the folder, innermost directory first. A path that
goes on past a file, if only by a slash, leads nowhere. -/
def follow (folder : Folder) (trailing : Bool) (place : List String) :
    List String → Except ReadError ByteArray
  | [] => .error .isADirectory
  | ".." :: names =>
    match place with
    | [] => followOutside names
    | _ :: place => follow folder trailing place names
  | name :: names =>
    if maxName < name.utf8ByteSize then .error .nameTooLong
    else
      match folder.content? (name :: place).reverse with
      | some content =>
        if names = [] && !trailing then .ok content else .error .notADirectory
      | none =>
        if folder.isDirectory (name :: place).reverse then follow folder trailing (name :: place) names
        else .error .notFound

/-- A path that ends in a slash, or in a dot after one, names a directory. -/
def namesDirectory (path : String) : Bool :=
  match (path.toList.splitOn '/').getLast? with
  | some last => last = [] || last = ['.']
  | none => false

/-- The content of the file a path names. Outside of the folder no file can be read. -/
def read (folder : Folder) (path : String) : Except ReadError ByteArray :=
  let names := FileName.components path
  if maxPath < path.utf8ByteSize then .error .nameTooLong
  else if path.toList.head? = some '/' then followOutside names
  else folder.follow (namesDirectory path) [] names

end Folder
end PathQuery.CommandLine
