/-!
# Progress reports

A session can report how much it has taken in to one listener at a time. It
does not keep the listener alive, and a listener may be busy when a report
arrives. Reports that fall behind the last delivered one are dropped, so what
is delivered in a session never goes back, whoever it is delivered to.
-/

namespace TextStream

structure Report where
  processed : Nat
  /-- Zero when the total is unknown. -/
  total : Nat
deriving DecidableEq, Repr

structure Delivery where
  listener : Nat
  report : Report
deriving DecidableEq, Repr

/-- Listeners are numbered from zero in the order of their creation. -/
structure Listeners where
  created : Nat := 0
  dropped : List Nat := []
  busy : List Nat := []
deriving DecidableEq, Repr

inductive Availability where
  | ready
  | busy
  | gone
deriving DecidableEq, Repr

def Listeners.availability (ls : Listeners) (id : Nat) : Availability :=
  if ls.dropped.contains id then .gone
  else if ls.busy.contains id then .busy
  else .ready

structure Progress where
  listener : Option Nat := none
  /-- The count of the last delivered report. -/
  lastProcessed : Nat := 0
deriving DecidableEq, Repr

/-- What becomes of a report. -/
inductive Fate where
  | outOfOrder
  | unheard
  | busy
  | delivered (listener : Nat)
deriving DecidableEq, Repr

namespace Progress

def attach (p : Progress) (id : Nat) : Progress :=
  { p with listener := some id }

def detach (p : Progress) : Progress :=
  { p with listener := none }

/-- The order of reports is checked before anyone is looked for. -/
def fate (p : Progress) (ls : Listeners) (r : Report) : Fate :=
  if r.processed < p.lastProcessed then .outOfOrder
  else
    match p.listener with
    | none => .unheard
    | some id =>
      match ls.availability id with
      | .gone => .unheard
      | .busy => .busy
      | .ready => .delivered id

/-- Only a delivery counts as progress made. -/
def after (p : Progress) (r : Report) : Fate → Progress
  | .delivered _ => { p with lastProcessed := r.processed }
  | .outOfOrder | .unheard | .busy => p

end Progress

end TextStream
