/-
  Report/Style: the characters and colours of a report.
-/
set_option autoImplicit false

namespace MetricFormula.Report

/-- Which characters draw the frame of a report. -/
inductive Charset where
  | unicode
  | ascii
  deriving DecidableEq, Repr, Inhabited

/-- The characters of a frame. -/
structure Frame where
  horizontal : Char
  vertical : Char
  gap : Char
  arrow : Char
  topLeft : Char
  bottomLeft : Char
  bottomRight : Char
  leftCross : Char
  underMiddle : Char
  under : Char

/-- The frame of a character set. -/
def Charset.frame : Charset → Frame
  | unicode => ⟨'─', '│', '┆', '▶', '╭', '╰', '╯', '├', '┬', '─'⟩
  | ascii => ⟨'-', '|', ':', '>', ',', '\x60', '\x27', '|', '|', '^'⟩

/-- What a colour tells apart. -/
inductive Hue where
  /-- The word that announces an error. -/
  | alarm
  /-- The margin of a line that is shown, and the frame. -/
  | margin
  /-- The margin of a line that is not shown. -/
  | faint
  /-- Text outside the label. -/
  | plain
  /-- The label and the text in it. -/
  | label
  /-- The word that announces advice. -/
  | advice
  deriving DecidableEq, Repr

/-- The terminal's code of a colour. -/
def Hue.code : Hue → String
  | alarm => "31"
  | margin => "38;5;246"
  | faint => "38;5;240"
  | plain => "38;5;249"
  | label => "38;5;155"
  | advice => "38;5;115"

/-- How a report is written. -/
structure Config where
  /-- Whether the terminal is told to change colours. -/
  color : Bool
  /-- The name under which the formula is shown. -/
  filename : Option String
  charset : Charset
  deriving DecidableEq, Repr

namespace Config

/-- Colours, no name, and Unicode frames. -/
def standard : Config := ⟨true, none, .unicode⟩

instance : Inhabited Config := ⟨standard⟩

/-- The name that is shown. -/
def name (c : Config) : String := c.filename.getD "<formula>"

/-- A text in a colour. -/
def paint (c : Config) (hue : Hue) (text : String) : String :=
  if c.color then "\x1b[" ++ hue.code ++ "m" ++ text ++ "\x1b[0m" else text

/-- A character in a colour. -/
def paintChar (c : Config) (hue : Hue) (x : Char) : String := c.paint hue x.toString

end Config

end MetricFormula.Report
