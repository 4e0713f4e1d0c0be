import TextStream.Proofs.Cursor.Stepwise
import TextStream.Proofs.Session.Verdict

/-!
# Progress interferes with nothing

Listeners come and go, are busy, and are sent reports on demand. None of this
is seen in a session's replies, its cursor or its end, so two histories that
differ in such commands alone cannot be told apart. A diagnostic shows the
progress record as it is, and only its text may differ.
-/

namespace TextStream

-- ---------------------------------------------------------------------------
-- What a history is about
-- ---------------------------------------------------------------------------

/-- The command without the listeners that are busy around it. -/
def Command.core : Command → Command
  | .whileBusy _ c => c.core
  | c => c

/-- The core of a command that does more than manage progress. -/
def Command.essential? : Command → Option Command
  | .cursor (.report _) | .attach | .reattach _ | .detach | .drop _ => none
  | .whileBusy _ c => c.essential?
  | c => some c

def essence (history : List Command) : List Command :=
  history.filterMap Command.essential?

/-- A reply, less the text of a diagnostic. -/
def Reply.apart : Reply → Reply
  | .text _ => .text ""
  | r => r

/-- How a session ended and where, and what the commands of a script answered. -/
def Finalized.outcome {ω : Type} (f : Finalized ω) :
    Verdict ω × Cursor × List (Reply × Cursor) :=
  (f.verdict, f.cursor, f.trace.map fun p => (p.1.apart, p.2))

namespace Session

/-- What can be seen of the essential commands: their replies and the cursors after them. -/
def observed (s : Session) (history : List Command) : List (Reply × Cursor) :=
  (history.zip (s.run history).1).filterMap fun p =>
    p.1.essential?.map fun _ => (p.2.result.apart, p.2.session.cursor)

/-- Sessions that differ in progress and listeners alone. -/
structure Alike (s s' : Session) : Prop where
  options : s.options = s'.options
  cursor : s.cursor = s'.cursor

namespace Alike

variable {s s' : Session}

theorem moveTo (h : Alike s s') (c : Cursor) :
    Alike (s.moveTo c).session (s'.moveTo c).session :=
  ⟨h.options, rfl⟩

theorem scan {α : Type} (h : Alike s s') (m : Scan α) :
    (s.scan m).result = (s'.scan m).result ∧ Alike (s.scan m).session (s'.scan m).session := by
  unfold Session.scan
  rw [h.cursor]
  cases m s'.cursor with
  | ok a c => exact ⟨rfl, h.moveTo c⟩
  | error e c => exact ⟨rfl, h.moveTo c⟩

theorem extend (h : Alike s s') (chunk : List Char) :
    Alike (s.extend chunk).session (s'.extend chunk).session :=
  ⟨h.options, congrArg (Cursor.extend · chunk) h.cursor⟩

theorem ingest (h : Alike s s') (chunk : List Char) :
    (s.ingest chunk).result = (s'.ingest chunk).result ∧
      Alike (s.ingest chunk).session (s'.ingest chunk).session :=
  (h.extend chunk).scan Cursor.prime

theorem act (h : Alike s s') (k : CursorCommand) :
    (s.act k).result.apart = (s'.act k).result.apart ∧
      Alike (s.act k).session (s'.act k).session := by
  cases k with
  | extend chunk => exact ⟨rfl, h.extend chunk⟩
  | advance =>
    obtain ⟨hresult, hsession⟩ := h.scan Cursor.advance
    exact ⟨congrArg (fun r => (Reply.ofChar r).apart) hresult, hsession⟩
  | advanceBy n =>
    unfold Session.act
    rw [h.cursor]
    exact ⟨rfl, h.moveTo _⟩
  | advanceWhile p dst =>
    unfold Session.act
    rw [h.cursor]
    exact ⟨rfl, h.moveTo _⟩
  | skipWhile p =>
    unfold Session.act
    rw [h.cursor]
    exact ⟨rfl, h.moveTo _⟩
  | keyword k =>
    obtain ⟨hresult, hsession⟩ := h.scan k.matchAt
    exact ⟨congrArg (fun r => (Reply.ofUnit r).apart) hresult, hsession⟩
  | errorHere f =>
    unfold Session.act
    rw [h.cursor]
    exact ⟨rfl, h⟩
  | report r => exact ⟨rfl, h.options, h.cursor⟩
  | describe =>
    show Reply.text "" = Reply.text "" ∧ Alike s s'
    exact ⟨rfl, h⟩

end Alike

-- ---------------------------------------------------------------------------
-- One command
-- ---------------------------------------------------------------------------

section
variable {s s' : Session} {c k : Command}

theorem perform_essential (hk : c.essential? = some k) (h : Alike s s') :
    (s.perform c).result.apart = (s'.perform k).result.apart ∧
      Alike (s.perform c).session (s'.perform k).session := by
  induction c generalizing s with
  | cursor m =>
    cases m with
    | report r => simp [Command.essential?] at hk
    | _ =>
      obtain rfl := Option.some.inj hk
      exact h.act _
  | ingest chunk =>
    obtain rfl := Option.some.inj hk
    obtain ⟨hresult, hsession⟩ := h.ingest chunk
    exact ⟨congrArg (fun r => (Reply.ofUnit r).apart) hresult, hsession⟩
  | whileBusy id c ih =>
    obtain ⟨hresult, hsession⟩ := ih hk (s := { s with
      listeners := { s.listeners with busy := id :: s.listeners.busy } }) ⟨h.options, h.cursor⟩
    exact ⟨hresult, hsession.options, hsession.cursor⟩
  | _ => simp [Command.essential?] at hk

theorem perform_inessential (hk : c.essential? = none) (h : Alike s s') :
    Alike (s.perform c).session s' := by
  induction c generalizing s with
  | cursor m =>
    cases m with
    | report r => exact ⟨h.options, h.cursor⟩
    | _ => simp [Command.essential?] at hk
  | ingest chunk => simp [Command.essential?] at hk
  | whileBusy id c ih =>
    have hsession := ih hk (s := { s with
      listeners := { s.listeners with busy := id :: s.listeners.busy } }) ⟨h.options, h.cursor⟩
    exact ⟨hsession.options, hsession.cursor⟩
  | _ => exact ⟨h.options, h.cursor⟩

theorem essential?_essential (hk : c.essential? = some k) : k.essential? = some k := by
  induction c with
  | cursor m =>
    cases m with
    | report r => simp [Command.essential?] at hk
    | _ =>
      obtain rfl := Option.some.inj hk
      rfl
  | ingest chunk =>
    obtain rfl := Option.some.inj hk
    rfl
  | whileBusy id c ih => exact ih hk
  | _ => simp [Command.essential?] at hk

end

-- ---------------------------------------------------------------------------
-- Whole histories
-- ---------------------------------------------------------------------------

theorem observed_cons (s : Session) (c : Command) (rest : List Command) :
    s.observed (c :: rest) =
      match c.essential? with
      | none => (s.perform c).session.observed rest
      | some _ =>
        ((s.perform c).result.apart, (s.perform c).session.cursor) ::
          (s.perform c).session.observed rest := by
  show ((c, s.perform c) :: rest.zip ((s.perform c).session.run rest).1).filterMap _ = _
  rw [List.filterMap_cons]
  simp only
  cases c.essential? <;> rfl

/-- Of a history nothing but its essence is seen. -/
theorem observed_essence {s s' : Session} (h : Alike s s') (history : List Command) :
    s.observed history = s'.observed (essence history) ∧
      Alike (s.run history).2 (s'.run (essence history)).2 := by
  induction history generalizing s s' with
  | nil => exact ⟨rfl, h⟩
  | cons c rest ih =>
    cases hk : c.essential? with
    | none =>
      obtain ⟨hobserved, hlast⟩ := ih (perform_inessential hk h)
      have hessence : essence (c :: rest) = essence rest := List.filterMap_cons_none hk
      rw [observed_cons, hk, hessence]
      exact ⟨hobserved, hlast⟩
    | some k =>
      obtain ⟨hresult, hsession⟩ := perform_essential hk h
      obtain ⟨hobserved, hlast⟩ := ih hsession
      have hessence : essence (c :: rest) = k :: essence rest := List.filterMap_cons_some hk
      rw [observed_cons, hk, hessence, observed_cons, essential?_essential hk]
      simp only
      rw [hresult, hsession.cursor, hobserved]
      exact ⟨rfl, hlast⟩

-- ---------------------------------------------------------------------------
-- The end of a session
-- ---------------------------------------------------------------------------

/-- Completions that differ in progress and listeners alone. -/
structure Completes {σ : Type} (d d' : Completion σ) : Prop where
  result : d.result = d'.result
  session : Alike d.session d'.session
  held : d.held = d'.held
  trace : d.trace.map (fun p => (p.1.apart, p.2)) = d'.trace.map fun p => (p.1.apart, p.2)

section
variable {σ ω : Type} (a : Assembler σ ω) {s s' : Session}

theorem follow_alike (h : Alike s s') (g : Grammar) (held : σ) :
    Completes (s.follow g a held) (s'.follow g a held) := by
  unfold follow
  rw [h.cursor]
  exact ⟨rfl, ⟨h.options, rfl⟩, rfl, rfl⟩

theorem script_alike (h : Alike s s') (held : σ) (c : Script.Command) :
    (Script.perform a s held c).reply.apart = (Script.perform a s' held c).reply.apart ∧
      Alike (Script.perform a s held c).session (Script.perform a s' held c).session ∧
      (Script.perform a s held c).held = (Script.perform a s' held c).held ∧
      (Script.perform a s held c).failure = (Script.perform a s' held c).failure := by
  cases c with
  | cursor k => exact ⟨(h.act k).1, (h.act k).2, rfl, rfl⟩
  | event e => exact ⟨rfl, h, rfl, rfl⟩
  | fail e => exact ⟨rfl, h, rfl, rfl⟩
  | failHere f =>
    unfold Script.perform
    rw [h.cursor]
    exact ⟨rfl, h, rfl, rfl⟩
  | mustAdvance =>
    obtain ⟨hresult, hsession⟩ := h.scan Cursor.advance
    unfold Script.perform
    simp only [hresult]
    exact ⟨trivial, hsession, trivial, trivial⟩

theorem playOut_alike (h : Alike s s') (held : σ) (commands : List Script.Command) :
    Completes (s.playOut a held commands) (s'.playOut a held commands) := by
  induction commands generalizing s s' held with
  | nil => exact ⟨rfl, h, rfl, rfl⟩
  | cons c rest ih =>
    obtain ⟨hreply, hsession, hheld, hfailure⟩ := script_alike a h held c
    unfold playOut
    simp only [hfailure, hheld]
    cases (Script.perform a s' held c).failure with
    | some e => exact ⟨rfl, hsession, rfl, by simp [hreply, hsession.cursor]⟩
    | none =>
      have hrest := ih hsession (Script.perform a s' held c).held
      refine ⟨hrest.result, hrest.session, hrest.held, ?_⟩
      simp [hreply, hsession.cursor, hrest.trace]

theorem complete_alike (h : Alike s s') (held : σ) (p : Plan) :
    Completes (s.complete a held p) (s'.complete a held p) := by
  cases p with
  | grammar g => exact follow_alike a h g held
  | script commands => exact playOut_alike a h held commands

/-- A session without text completes nothing. -/
def attempt (s : Session) (held : σ) (p : Plan) : Completion σ :=
  if s.cursor.ingested = 0 then { result := .error .emptyInput, session := s, held := held }
  else s.complete a held p

theorem attempt_alike (h : Alike s s') (held : σ) (p : Plan) :
    Completes (attempt a s held p) (attempt a s' held p) := by
  unfold attempt
  rw [h.cursor]
  split
  · exact ⟨rfl, h, rfl, rfl⟩
  · exact complete_alike a h held p

theorem outcome_conclude (s : Session) (held : σ) (p : Plan) :
    (s.conclude a held p).outcome =
      (match output a (attempt a s held p) with
        | .ok out => .ok out
        | .error e => s.options.refuse e (attempt a s held p).session.cursor.position,
        (attempt a s held p).session.cursor,
        (attempt a s held p).trace.map fun p => (p.1.apart, p.2)) := by
  cases hout : output a (attempt a s held p) with
  | ok out =>
    unfold attempt at hout ⊢
    simp only [conclude, hout]
    rfl
  | error e =>
    unfold attempt at hout ⊢
    simp only [conclude, hout]
    rfl

theorem outcome_finalize (h : Alike s s') (held : σ) (p : Option Plan) :
    (s.finalize a held p).outcome = (s'.finalize a held p).outcome := by
  cases p with
  | none => simp only [finalize, Plan.require, Finalized.outcome, h.cursor]
  | some p =>
    have hdone := attempt_alike a h held p
    show (s.conclude a held p).outcome = (s'.conclude a held p).outcome
    rw [outcome_conclude, outcome_conclude, output, output, hdone.result, hdone.held,
      hdone.session.cursor, hdone.trace, h.options]

end

end Session

end TextStream
