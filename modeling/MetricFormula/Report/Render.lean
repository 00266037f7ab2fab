/-
  Report/Render: faults as reports.

  A report quotes the lines that the fault lies on, marks the place with a label
  that repeats the message, and adds the advice.  A span on one line is underlined
  from below; a longer one is bracketed on the left from its first line to its
  last.  Places are counted in characters.  A fault without a place is one line of
  text.
-/
import MetricFormula.Fault
import MetricFormula.Text.Blank
import MetricFormula.Text.CellWidth
import MetricFormula.Report.Line
import MetricFormula.Report.Style

set_option autoImplicit false

namespace MetricFormula.Report

/-! ## Characters in cells -/

/-- How a character is shown. -/
structure Cell where
  glyph : Char
  width : Nat
  blank : Bool

/-- How a character is shown in a column.  A tab reaches to the next multiple of
four columns; every other blank is one space. -/
def cell (column : Nat) (c : Char) : Cell :=
  if c = '\t' then ⟨' ', (column / 4 + 1) * 4 - column, true⟩
  else if Text.isBlank c then ⟨' ', 1, true⟩
  else ⟨c, Text.cellWidth c, false⟩

/-- The cells of a line, without its trailing blanks. -/
def Line.cells (l : Line) : List Cell :=
  (Text.trimEnd l.text).mapIdx cell

/-- The widths of the first characters of a line.  Past its end every place is one
cell wide. -/
def Line.widths (l : Line) (count : Nat) : List Nat :=
  (l.cells.map Cell.width ++ List.replicate count 1).take count

/-- A text some number of times. -/
def repeated (n : Nat) (s : String) : String := String.join (List.replicate n s)

/-- Blanks. -/
def spaces (n : Nat) : String := repeated n " "

/-- A text set to the right in a field. -/
def padLeft (width : Nat) (s : String) : String := spaces (width - s.length) ++ s

/-- A place of given width that starts with one text and is filled up with
another. -/
def filled (width : Nat) (first other : String) : String :=
  if width = 0 then "" else first ++ repeated (width - 1) other

/-! ## One report -/

/-- What the parts of a report need to know. -/
structure Sheet where
  config : Config
  source : List Line
  span : Span
  /-- The numbers of the lines on which the span starts and ends. -/
  firstLine : Nat
  lastLine : Nat
  message : String

namespace Sheet

variable (s : Sheet)

def frame : Frame := s.config.charset.frame

/-- The line of a number. -/
def line (i : Nat) : Line := s.source[i]?.getD default

/-- The width of the line numbers. -/
def numberWidth : Nat := (toString (s.lastLine + 1)).length

def painted (hue : Hue) (x : Char) : String := s.config.paintChar hue x

/-- Whether the label covers a character. -/
def covers (offset : Nat) : Bool := s.span.start ≤ offset && offset < s.span.stop

/-- The margin of a quoted line. -/
def numbered (i : Nat) : String :=
  " " ++ s.config.paint .margin
    (padLeft s.numberWidth (toString (i + 1)) ++ " " ++ s.frame.vertical.toString) ++ " "

/-- The margin of a line without a number. -/
def unnumbered (bar : Char) : String :=
  " " ++ s.config.paint .faint (spaces (s.numberWidth + 1) ++ bar.toString) ++ " "

def blank : String := s.unnumbered s.frame.vertical

/-- A quoted line. -/
def quoted (i : Nat) : String :=
  let l := s.line i
  String.join (l.cells.mapIdx fun k x =>
    let hue := if s.covers (l.offset + k) then Hue.label else Hue.plain
    repeated (if x.blank then x.width else 1) (s.painted hue x.glyph)) ++ "\n"

/-- The two lines under a line with the whole label on it: the underline, and the
arm that leads to the message. -/
def underline : String :=
  let l := s.line s.firstLine
  let middle := (s.span.start + s.span.stop) / 2 - l.offset
  let widths := l.widths (s.span.stop - l.offset + 2)
  let mark (k width : Nat) : String :=
    let under := s.covers (l.offset + k)
    if k = middle then
      if under then
        filled width (s.painted .label s.frame.underMiddle) (s.painted .label s.frame.under)
      else filled width (s.painted .label s.frame.vertical) (s.painted .label ' ')
    else if under then
      filled width (s.painted .label s.frame.under) (s.painted .label s.frame.under)
    else filled width " " " "
  let arm (k width : Nat) : String :=
    let bar := s.painted .label s.frame.horizontal
    if k = middle then filled width (s.painted .label s.frame.bottomLeft) bar
    else if middle < k then filled width bar bar
    else filled width " " " "
  s.blank ++ String.join (widths.mapIdx mark) ++ "\n"
    ++ s.blank ++ String.join (widths.mapIdx arm) ++ " " ++ s.message ++ "\n"

/-- A line that the label starts or ends on. -/
def bracketed (i : Nat) (corner : Char) : String :=
  s.numbered i ++ s.painted .label corner ++ s.painted .label s.frame.horizontal
    ++ s.painted .label s.frame.arrow ++ s.painted .label ' ' ++ s.quoted i

/-- A label over several lines. -/
def bracket : String :=
  let last := s.line s.lastLine
  let width := (last.widths (last.text.length + 2)).foldl (· + ·) 0
  let bar := s.painted .label s.frame.horizontal
  s.bracketed s.firstLine s.frame.topLeft
    ++ (if 1 < s.lastLine - s.firstLine then
          s.unnumbered s.frame.gap ++ s.painted .label s.frame.gap ++ "   \n"
        else "")
    ++ s.bracketed s.lastLine s.frame.leftCross
    ++ s.blank ++ s.painted .label s.frame.vertical ++ "   " ++ spaces width ++ "\n"
    ++ s.blank ++ s.painted .label s.frame.bottomLeft ++ repeated 3 bar ++ repeated width bar
    ++ " " ++ s.message ++ "\n"

/-- The margin of the advice.  Under a bracket it leaves room for it, and the
bracket of a label that starts right after the first line is drawn on. -/
def helpMargin : String :=
  if s.firstLine = s.lastLine then s.blank
  else if s.span.start = (s.line 0).text.length then
    s.blank ++ s.painted .label s.frame.vertical ++ "   "
  else s.blank ++ "    "

/-- One piece of advice, which may have several lines. -/
def help (advice : String) : String :=
  s.helpMargin ++ "\n"
    ++ String.join ((advice.splitOn "\n").mapIdx fun i l =>
      s.helpMargin ++ (if i = 0 then s.config.paint .advice "Help" ++ ": " else spaces 6)
        ++ l ++ "\n")

/-- The frame above the quoted lines, with the place. -/
def header : String :=
  let l := s.line s.firstLine
  spaces (s.numberWidth + 2) ++ s.painted .margin s.frame.topLeft
    ++ s.painted .margin s.frame.horizontal ++ s.painted .margin '['
    ++ " " ++ s.config.name ++ ":" ++ toString (s.firstLine + 1) ++ ":"
    ++ toString (s.span.start - l.offset + 1) ++ " " ++ s.painted .margin ']' ++ "\n"
    ++ spaces (s.numberWidth + 2) ++ s.painted .margin s.frame.vertical ++ "\n"

/-- The frame below. -/
def footer : String :=
  s.config.paint .margin
    (repeated (s.numberWidth + 2) s.frame.horizontal.toString ++ s.frame.bottomRight.toString)
    ++ "\n"

/-- The quoted lines with the label. -/
def body : String :=
  if s.firstLine = s.lastLine then
    s.numbered s.firstLine ++ s.quoted s.firstLine ++ s.underline
  else s.bracket

end Sheet

/-- The line that announces a diagnostic. -/
def announcement (config : Config) (d : Diagnostic) : String :=
  config.paint .alarm ("[" ++ d.code ++ "] Error:") ++ " " ++ d.message ++ "\n"

/-- The sheet of a diagnostic of a text. -/
def sheet (config : Config) (d : Diagnostic) (source : List Char) : Sheet :=
  let ls := lines source
  let first := lineAt ls d.span.start
  { config := config
    source := ls
    span := d.span
    firstLine := first
    lastLine := if d.span.isEmpty then first else lineAt ls (d.span.stop - 1)
    message := d.message }

/-- The report of a diagnostic.  A place outside the text is not shown. -/
def ofDiagnostic (config : Config) (d : Diagnostic) (source : List Char) : String :=
  if source.length < d.span.start ∨
      (d.span.isEmpty = false ∧ source.length < d.span.stop - 1) then
    announcement config d
  else
    let s := sheet config d source
    announcement config d ++ s.header ++ s.body ++ String.join (d.help.map s.help) ++ s.footer

/-- The report of a fault of a text. -/
def ofFault (config : Config) (f : Fault) (source : String) : String :=
  match f with
  | .series cause => "Series error: " ++ cause.message ++ "\n"
  | .internal cause => "Internal error: " ++ cause.message ++ "\n"
  | other => ofDiagnostic config other.diagnostic source.toList

end MetricFormula.Report
