/-!
# Lines and joins

Splitting a text at line feeds, joining texts with a separator, dropping line feeds from the end,
and filling a text up to a width. A text has one line more than it has line feeds.
-/

namespace SchemaForge.Text

/-- The texts in order, with `separator` between neighbours. -/
def join (separator : String) : List String → String
  | [] => ""
  | [s] => s
  | s :: rest => s ++ separator ++ join separator rest

/-- The lines of a text: what stands between its line feeds. A text without any is one line, and so
is the empty text. -/
def lines : List Char → List (List Char)
  | [] => [[]]
  | c :: rest =>
    if c = '\n' then [] :: lines rest
    else match lines rest with
      | [] => [[c]]
      | line :: more => (c :: line) :: more

/-- The text without the line feeds at its end, however many there are. -/
def dropFinalFeeds (cs : List Char) : List Char :=
  (cs.reverse.dropWhile (· == '\n')).reverse

/-- A text read with every line ending, CR LF or CR alone, as one line feed, as files are read. -/
def unifyLineEndings : List Char → List Char
  | [] => []
  | '\r' :: '\n' :: rest => '\n' :: unifyLineEndings rest
  | '\r' :: rest => '\n' :: unifyLineEndings rest
  | c :: rest => c :: unifyLineEndings rest

/-- The text filled up with spaces to a width. -/
def padRight (width : Nat) (s : String) : String :=
  s ++ String.ofList (List.replicate (width - s.length) ' ')

end SchemaForge.Text
