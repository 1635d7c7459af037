/-!
# Paths

Paths are texts of parts between slashes; one that begins with a slash is absolute. Empty parts and
parts that are a single point mean nothing, and they are cut off only where a path ends.
-/

namespace Codeplug.Path

def isAbsolute (path : String) : Bool := path.startsWith "/"

/-- The parts of a path, also those that mean nothing. -/
def parts (path : String) : List String := path.splitOn "/"

/-- Cuts meaningless parts off the end of a path that is written backwards. The slash of the root
stays. -/
def trimBackwards : List Char → List Char
  | ['/'] => ['/']
  | '/' :: rest => trimBackwards rest
  | '.' :: '/' :: rest => trimBackwards ('/' :: rest)
  | path => path
termination_by path => path.length

/-- Cuts meaningless parts off the start of a relative path. -/
def trimForwards : List Char → List Char
  | '/' :: rest => trimForwards rest
  | '.' :: '/' :: rest => trimForwards rest
  | ['.'] => []
  | path => path

/-- The directory that the last part of a path is in. -/
def directory (path : String) : String :=
  let backwards := trimBackwards path.toList.reverse
  String.ofList (trimBackwards (backwards.dropWhile (· ≠ '/'))).reverse

/-- A path seen from a directory. -/
def join (directory path : String) : String :=
  if isAbsolute path then path
  else if directory.isEmpty || directory.endsWith "/" then directory ++ path
  else directory ++ "/" ++ path

/-- What leads from a directory to a path below it, and a path elsewhere as it is. -/
def relativeTo (directory path : String) : String :=
  match (directory.toList ++ ['/']).isPrefixOf path.toList with
  | true =>
    let rest := trimForwards (path.toList.drop (directory.length + 1))
    String.ofList (trimBackwards rest.reverse).reverse
  | false => path

end Codeplug.Path
