import SchemaForge.Text.Joining

/-!
# Fragments of source text

A `Fragment` collects lines at a current level of indentation, so that each encoder stays free of it
(section 4.2 of the specification). A text of several lines is added as a unit: each of its lines
gets the current margin, empty lines get none. So an expression can be written on its own, from
column zero, and placed at any level.
-/

namespace SchemaForge

/-- Lines written so far and the level at which the next ones are written. Nothing that is written
changes any more. -/
structure Fragment where
  /-- The current level; below zero there is no margin. -/
  level : Int := 0
  /-- The margin of one level. -/
  unit : List Char := [' ', ' ']
  /-- The lines, each with its margin and without its line feed. -/
  written : List (List Char) := []

namespace Fragment

/-- What a line at the current level begins with. -/
def margin (f : Fragment) : List Char := (List.replicate f.level.toNat f.unit).flatten

/-- A line behind a margin; an empty line stays empty. -/
def withMargin (margin line : List Char) : List Char :=
  if line.isEmpty then [] else margin ++ line

/-- The fragment with the lines of a text added at the current level, each behind the `margin`. -/
def line (f : Fragment) (text : List Char) : Fragment :=
  { f with written := f.written ++ (Text.lines text).map (withMargin f.margin) }

/-- The fragment with each of several texts added at the current level. -/
def linesOf (f : Fragment) (texts : List (List Char)) : Fragment := texts.foldl line f

/-- The fragment at a level deeper by `n`. -/
def indent (f : Fragment) (n : Int) : Fragment := { f with level := f.level + n }

/-- The text of the fragment: every line with its line feed. -/
def text (f : Fragment) : List Char := f.written.flatMap (· ++ ['\n'])

/-- The fragment as an expression within a line: its text without the final line feeds, to be placed
by `line` again. -/
def expression (f : Fragment) : List Char := Text.dropFinalFeeds f.text

/-- An opening line, items one level deeper, and a closing line, as one expression at column
zero. -/
def block (opening : String) (items : List String) (closing : String) : String :=
  let f : Fragment := {}
  let f := f.line opening.toList
  let f := ((f.indent 1).linesOf (items.map String.toList)).indent (-1)
  String.ofList (f.line closing.toList).expression

end Fragment

end SchemaForge
