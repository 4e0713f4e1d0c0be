import TextStream.Session.Basic

/-!
# A session's cursor in diagnostics

All fields by name. The rule for line ends is a function and is not shown.
-/

namespace TextStream.Session

open Text (optionText recordText)

def bufferText (b : Buffer) : String :=
  recordText "Buffer" [
    ("data", "[" ++ String.intercalate ", " (b.data.map Text.quoted) ++ "]"),
    ("next", toString b.next)]

def progressText (p : Progress) : String :=
  recordText "ProgressHandle" [
    ("attached", if p.listener.isSome then "true" else "false"),
    ("last_processed", toString p.lastProcessed)]

def describe (s : Session) : String :=
  recordText "Cursor" [
    ("buffer", bufferText s.cursor.buffer),
    ("current", optionText (s.cursor.current.map Text.quoted)),
    ("index", toString s.cursor.index),
    ("line", toString s.cursor.position.line),
    ("character", toString s.cursor.position.character),
    ("ingested", toString s.cursor.ingested),
    ("line_terminator", "<fn>"),
    ("expected_len", optionText (s.options.expectedLen.map toString)),
    ("progress", progressText s.progress)]

end TextStream.Session
