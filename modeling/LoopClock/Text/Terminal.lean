/-! Text as it is written where no terminal reads it: control characters and escape sequences are
left out. Blanks stay, also those that break into a sequence. -/
namespace LoopClock.Terminal

/-- How far an escape sequence has come. -/
inductive Sequence where
  | none
  | escape
  /-- After ESC and a space or punctuation: one more character follows. -/
  | designation
  /-- Parameters up to a letter, such as colours and cursor moves. -/
  | control
  /-- A command of the operating system, up to BEL. -/
  | command
  /-- A string for the device: at its start. -/
  | device
  /-- In the parameters of a device string. -/
  | parameters
  /-- In the punctuation between these and the letter that follows. -/
  | punctuation
  /-- The text of a string, or all that comes after a malformed start, up to ST. -/
  | string
  deriving DecidableEq, Repr

def isBetween (low high : Nat) (c : Char) : Bool := low ≤ c.toNat && c.toNat ≤ high

def isBlankControl (c : Char) : Bool := c == '\t' || c == '\n' || c == '\x0c' || c == '\r'

/-- Everything but control characters, of which the blank ones count as text. -/
def isText (c : Char) : Bool := isBlankControl c || (0x20 ≤ c.toNat && c.toNat ≠ 0x7f)

namespace Sequence

/-- What a character that is not shown makes of a sequence. CAN and SUB break it off, ESC starts
another one. -/
def next (s : Sequence) (c : Char) : Sequence :=
  if c == '\x1b' then escape
  else if c == '\x18' || c == '\x1a' then none
  else match s with
    | none => none
    | escape =>
      if c == '[' then control
      else if c == ']' then command
      else if c == 'P' then device
      else if c == 'X' || c == '^' || c == '_' then string
      else if isBetween 0x20 0x2f c then designation
      else if isBetween 0x30 0x7e c then none
      else escape
    | designation => if isBetween 0x30 0x7e c then none else designation
    | control => if isBetween 0x40 0x7e c then none else control
    | command => if c == '\x07' then none else command
    | device =>
      if isBetween 0x20 0x2f c then punctuation
      else if isBetween 0x30 0x3f c then parameters
      else if isBetween 0x40 0x7e c then string
      else device
    | parameters =>
      if isBetween 0x20 0x2f c then punctuation
      else if isBetween 0x3c 0x7e c then string
      else parameters
    | punctuation => if isBetween 0x30 0x7e c then string else punctuation
    | string => if (String.utf8EncodeChar c).contains 0x9c then none else string

/-- Whether a character is shown at this point of a sequence. -/
def shows : Sequence → Char → Bool
  | none, c => isText c
  | escape, c | designation, c | control, c => isBlankControl c
  | command, _ | device, _ | parameters, _ | punctuation, _ | string, _ => false

end Sequence

/-- The text that is shown of `cs`. Once something is shown, so is all text up to the next control
character, which takes up the broken sequence again, unless a character outside ASCII came
between. -/
def shown (showing : Bool) (s : Sequence) : List Char → List Char
  | [] => []
  | c :: cs =>
    if (showing && isText c) || s.shows c then
      c :: shown true (if 0x80 ≤ c.toNat then .none else s) cs
    else shown false (s.next c) cs

/-- The text without anything meant for a terminal. -/
def plain (text : String) : String := String.ofList (shown false .none text.toList)

end LoopClock.Terminal
