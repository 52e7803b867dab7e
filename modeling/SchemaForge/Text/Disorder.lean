import SchemaForge.Text.Blank
import SchemaForge.Text.Printable
import SchemaForge.Text.Symbol

/-!
# Disorder

How unlike writing a list of characters is, which tells texts from bytes read in a wrong encoding.
Characters that cannot be printed make disorder. Punctuation and symbols make clutter, but for the
marks that data formats are full of, and a mark that is repeated counts once. Capitals with accents
seldom follow each other.

A text is legible if at every place where it is measured fewer than one character in forty cannot
be printed, clutter stays below three tenths, and fewer than one letter in ten is a capital with an
accent after another one. It is measured at regular places and at its end, with a line feed added.
So a character at the start can make a text illegible that is orderly on the whole.
-/

namespace SchemaForge.Text

/-- A character that cannot be printed and does not separate words. The substitute and the byte
order mark are let pass. -/
def isUnprintable (c : Char) : Bool :=
  !isPrintable c && !isBlank c && c != '\x1a' && c != '\ufeff'

/-- The marks that data formats are full of. -/
def formatMarks : List Char := "<>=:/&;\x7b\x7d[],|\"-()".toList

/-- How much a printable character that follows `last` clutters a text. -/
def clutterOf (last : Option Char) (c : Char) : Nat :=
  if last = some c ∨ formatMarks.contains c then 0
  else if isPunctuation c then 1
  else if isSymbol c then 2
  else 0

/-- A letter of Latin-1. -/
def isLatinLetter (c : Char) : Bool :=
  c.isAlpha || (0xc0 ≤ c.toNat && c.toNat ≤ 0xff && c != '×' && c != '÷')

/-- A capital of Latin-1 with an accent, a cedilla or the like. -/
def isAccentedCapital (c : Char) : Bool :=
  0xc0 ≤ c.toNat && c.toNat ≤ 0xdd && c != 'Æ' && c != 'Ð' && c != '×' && c != 'Ø'

/-- What is counted up to a place in a text. -/
structure Tally where
  /-- All characters. -/
  characters : Nat := 0
  /-- Those that make disorder. -/
  unprintable : Nat := 0
  /-- Those that can be printed. -/
  printable : Nat := 0
  /-- How much clutter they make. -/
  clutter : Nat := 0
  /-- The last one of those that can be printed. -/
  last : Option Char := none
  /-- The letters of Latin-1. -/
  letters : Nat := 0
  /-- Those that are capitals with accents and follow another such letter. -/
  accents : Nat := 0
  /-- The last one of the letters. -/
  lastLetter : Option Char := none

namespace Tally

/-- The tally after one more character. -/
def add (t : Tally) (c : Char) : Tally :=
  let t := { t with
    characters := t.characters + 1
    unprintable := t.unprintable + if isUnprintable c then 1 else 0 }
  let t := if isPrintable c then
      { t with
        printable := t.printable + 1
        clutter := t.clutter + clutterOf t.last c
        last := some c }
    else t
  if isLatinLetter c then
    let repeated := isAccentedCapital c && t.lastLetter.any isAccentedCapital
    { t with
      letters := t.letters + 1
      accents := t.accents + if repeated then 1 else 0
      lastLetter := some c }
  else t

/-- Whether a text that is measured here passes. -/
def isLegible (t : Tally) : Bool :=
  40 * t.unprintable < t.characters && (t.clutter == 0 || 10 * t.clutter < 3 * t.printable)
    && (t.accents == 0 || 10 * t.accents < t.letters)

/-- Whether a text passes wherever it is measured after this place: after `step` characters from
the first one on, again and again, and at its end. -/
def staysLegible (step : Nat) (t : Tally) : List Char → Bool
  | [] => true
  | c :: rest =>
    let t := t.add c
    let isMeasured := rest.isEmpty || (t.characters != 1 && t.characters % step == 1)
    (!isMeasured || t.isLegible) && staysLegible step t rest

end Tally

/-- The distance between the places at which a text of a length is measured. -/
def measuringStep (length : Nat) : Nat :=
  if length < 512 then 32 else if length ≤ 1024 then 64 else 128

/-- Whether a text is legible. -/
def isLegible (text : List Char) : Bool :=
  Tally.staysLegible (measuringStep (text.length + 1)) {} (text ++ ['\n'])

/-- The disorder of a text: how many of its characters, the added line feed among them, cannot be
printed, and how many there are. -/
def disorder (text : List Char) : Nat × Nat := (text.countP isUnprintable, text.length + 1)

/-- Whether a text is more likely than another one: it has less disorder, or as much and fewer
characters. -/
def isLikelier (s t : List Char) : Bool :=
  let (m, k) := disorder s
  let (n, l) := disorder t
  m * l < n * k || (m * l == n * k && s.length < t.length)

/-- The likeliest of several texts, the first one of equally likely ones. -/
def likeliest? : List (List Char) → Option (List Char)
  | [] => none
  | t :: rest => some (rest.foldl (fun best s => if isLikelier s best then s else best) t)

end SchemaForge.Text
