import TextStream.Assembly.Event
import TextStream.Error
import TextStream.Session.Progress
import TextStream.Text.Quoted

/-!
# Notices

What a session says about its own work. A notice has a level, a fixed message
and named fields.
-/

namespace TextStream

inductive Notice where
  | extended (added evicted retained : Nat)
  | crossedLine (line : Nat)
  | primed (x : Char) (index : Nat)
  | outOfOrder (processed last : Nat)
  | listenerBusy (processed : Nat)
  | childDropped (refusal : Refusal)
  | finalizing (ingested : Nat) (pos : Position)
  | finalizeFailed (error : ParseError) (pos : Position)
deriving DecidableEq, Repr

inductive Level where
  | trace
  | debug
deriving DecidableEq, Repr

def Level.name : Level → String
  | trace => "TRACE"
  | debug => "DEBUG"

namespace Notice

def level : Notice → Level
  | finalizing .. | finalizeFailed .. => .debug
  | extended .. | crossedLine _ | primed .. | outOfOrder .. | listenerBusy _ | childDropped _ =>
    .trace

def message : Notice → String
  | extended .. => "extended cursor input"
  | crossedLine _ => "crossed line terminator"
  | primed .. => "primed cursor"
  | outOfOrder .. => "dropping out-of-order progress report"
  | listenerBusy _ => "progress delegate busy, skipping report"
  | childDropped _ => "dropping child event that does not fit the root"
  | finalizing .. => "finalizing"
  | finalizeFailed .. => "finalize failed"

def kindText (kind : Option Kind) : String :=
  Text.optionText (kind.map fun k => "\"" ++ k.name ++ "\"")

def fields : Notice → List (String × String)
  | extended added evicted retained =>
    [("added", toString added), ("evicted", toString evicted), ("retained", toString retained)]
  | crossedLine line => [("line", toString line)]
  | primed x index => [("c", Text.quoted x), ("index", toString index)]
  | outOfOrder processed last => [("processed", toString processed), ("last", toString last)]
  | listenerBusy processed => [("processed", toString processed)]
  | childDropped refusal =>
    [("keyed", if refusal.keyed then "true" else "false"), ("root", kindText refusal.root)]
  | finalizing ingested pos => [("ingested", toString ingested), ("position", pos.text)]
  | finalizeFailed error pos => [("err", error.message), ("position", pos.text)]

/-- One notice for each line end between two points, with the line it leads to. -/
def crossings (before after : Nat) : List Notice :=
  (List.range' (before + 1) (after - before)).map crossedLine

end Notice

/-- What happens outside a session while it works. -/
structure Activity where
  notices : List Notice := []
  deliveries : List Delivery := []
deriving DecidableEq, Repr

namespace Activity

instance : Append Activity :=
  ⟨fun a b => ⟨a.notices ++ b.notices, a.deliveries ++ b.deliveries⟩⟩

def ofNotices (notices : List Notice) : Activity :=
  { notices := notices }

/-- What a report with this fate causes. -/
def ofFate (p : Progress) (r : Report) : Fate → Activity
  | .outOfOrder => ofNotices [.outOfOrder r.processed p.lastProcessed]
  | .unheard => {}
  | .busy => ofNotices [.listenerBusy r.processed]
  | .delivered id => { deliveries := [⟨id, r⟩] }

end Activity

end TextStream
