import SchemaForge.Text.Joining

/-!
# Paths

A path is a start and the names that follow it. The start is nothing for a path from the working
directory, and one or two slashes for a path from the root; three or more count as one. Empty names
and single dots are left out when a path is read, so paths that differ only in them are equal.
Double dots stay: `resolve` takes them away together with the names in front of them.
-/

namespace SchemaForge

/-- A path to a file or a directory. -/
structure Path where
  /-- What the path starts with: nothing, one slash or two. -/
  root : String
  /-- The names that follow. -/
  names : List String
  deriving DecidableEq, Inhabited

namespace Path

/-- The parts of a text between its slashes. -/
def slashParts : List Char → List (List Char)
  | [] => [[]]
  | c :: rest =>
    if c == '/' then [] :: slashParts rest
    else match slashParts rest with
      | [] => [[c]]
      | part :: parts => (c :: part) :: parts

/-- The slashes that a text starts with, as the start of a path. -/
def rootOf : List Char → String
  | '/' :: '/' :: '/' :: _ => "/"
  | '/' :: '/' :: _ => "//"
  | '/' :: _ => "/"
  | _ => ""

/-- The path that a text writes: its start by `rootOf`, and its names without empty ones and single
dots. -/
def ofText (text : String) : Path :=
  let parts := (slashParts text.toList).map String.ofList
  ⟨rootOf text.toList, parts.filter fun part => part ≠ "" && part ≠ "."⟩

/-- The text of a path; a path without start and names is the working directory itself. -/
def text (p : Path) : String :=
  let text := p.root ++ Text.join "/" p.names
  if text.isEmpty then "." else text

/-- Whether a path starts at the root. -/
def isAbsolute (p : Path) : Bool := !p.root.isEmpty

/-- The path that leads on from `p` by `q`; an absolute `q` stands for itself. This is `p ++ q`. -/
def append (p q : Path) : Path := if q.isAbsolute then q else ⟨p.root, p.names ++ q.names⟩

/-- `p ++ q` is the path `q` taken from `p`. -/
instance : Append Path := ⟨append⟩

/-- The path with one more name. -/
def child (p : Path) (name : String) : Path := ⟨p.root, p.names ++ [name]⟩

/-- The path without its last name. -/
def parent (p : Path) : Path := ⟨p.root, p.names.dropLast⟩

/-- The last name, empty if there is none. -/
def name (p : Path) : String := p.names.getLast?.getD ""

/-- The end of a name from its last dot on, unless the dot is its first or last character. -/
def suffixOf (name : List Char) : List Char :=
  -- A name that begins with its only dot has no suffix, nor has one that ends with it.
  let behind := (name.reverse.takeWhile (· ≠ '.')).reverse
  let before := name.take (name.length - behind.length - 1)
  if behind.isEmpty || before.isEmpty || behind.length == name.length then [] else '.' :: behind

/-- The suffix of the last name, in lower case, by which `Document.parse` knows the format. -/
def suffix (p : Path) : String := String.ofList ((suffixOf p.name.toList).map Char.toLower)

/-- The names with every double dot taken away together with the name in front of it; `done` are
the names so far, the last one first. -/
def settle (done : List String) : List String → List String
  | [] => done.reverse
  | name :: rest =>
    if name = ".." then settle done.tail rest else settle (name :: done) rest

/-- The absolute path without double dots that a path means in a working directory, by `settle`. -/
def resolve (here p : Path) : Path := ⟨"/", settle [] (here ++ p).names⟩

/-- Whether a path can name anything: no name may hold the null character. -/
def isUsable (p : Path) : Bool := p.names.all fun name => !name.toList.contains '\x00'

end Path

end SchemaForge
