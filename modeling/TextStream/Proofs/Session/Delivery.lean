import TextStream.Proofs.Session.Interference

/-!
# Which reports are delivered

The history of a session says which listener is attached, which were dropped
and how much was delivered to whom. Every command asks for at most one report.
Main statement: the report is delivered exactly if someone is there to take it
and it does not fall behind the last one delivered to anyone.
-/

namespace TextStream

-- ---------------------------------------------------------------------------
-- What commands ask for
-- ---------------------------------------------------------------------------

namespace Command

/-- The listeners that are busy while the command runs. -/
def borrowed : Command → List Nat
  | .whileBusy id c => c.borrowed ++ [id]
  | _ => []

/-- The text that the command hands in. -/
def chunk : Command → List Char
  | .cursor (.extend chunk) | .ingest chunk => chunk
  | .whileBusy _ c => c.chunk
  | _ => []

/-- The report that the command asks for: its own, or how much was taken in
once its chunk is added to what was taken in before. -/
def report? (total taken : Nat) : Command → Option Report
  | .cursor (.extend chunk) | .ingest chunk => some ⟨taken + chunk.length, total⟩
  | .cursor (.report r) => some r
  | .whileBusy _ c => c.report? total taken
  | _ => none

end Command

-- ---------------------------------------------------------------------------
-- What a history says, with the latest command first
-- ---------------------------------------------------------------------------

namespace History

def taken (past : List Command) : Nat :=
  (past.map fun c => c.chunk.length).sum

def created (past : List Command) : Nat :=
  past.countP fun c => c.core = .attach

/-- The listener that was attached last, if it was not detached since. -/
def attached : List Command → Option Nat
  | [] => none
  | c :: past =>
    match c.core with
    | .attach => some (created past)
    | .reattach id => some id
    | .detach => none
    | _ => attached past

/-- The count of the last delivery. -/
def lastCount (deliveries : List Delivery) : Nat :=
  (deliveries.getLast?.map fun δ => δ.report.processed).getD 0

end History

-- ---------------------------------------------------------------------------
-- One report
-- ---------------------------------------------------------------------------

namespace Progress

variable {p : Progress} {ls : Listeners} {r : Report} {δ : Delivery}

/-- The record once a delivery was made, if one was. -/
def counting (p : Progress) (delivery : Option Delivery) : Progress :=
  { p with
    lastProcessed := (delivery.map fun δ => δ.report.processed).getD p.lastProcessed }

/-- The delivery that a report leads to. -/
def delivery? (p : Progress) (ls : Listeners) (r : Report) : Option Delivery :=
  match p.fate ls r with
  | .delivered id => some ⟨id, r⟩
  | .outOfOrder | .unheard | .busy => none

theorem availability_eq_ready_iff {id : Nat} :
    ls.availability id = .ready ↔ id ∉ ls.dropped ∧ id ∉ ls.busy := by
  unfold Listeners.availability
  by_cases hdropped : id ∈ ls.dropped
  · simp [hdropped]
  · by_cases hbusy : id ∈ ls.busy
    · simp [hdropped, hbusy]
    · simp [hdropped, hbusy]

theorem fate_eq_delivered_iff {id : Nat} :
    p.fate ls r = .delivered id ↔
      p.lastProcessed ≤ r.processed ∧ p.listener = some id ∧ id ∉ ls.dropped ∧ id ∉ ls.busy := by
  rw [← availability_eq_ready_iff]
  unfold fate
  by_cases hlate : r.processed < p.lastProcessed
  · simp [hlate]
  · rw [if_neg hlate]
    have hle := Nat.le_of_not_lt hlate
    cases hl : p.listener with
    | none => simp
    | some id' =>
      simp only [hle, Option.some.injEq, true_and]
      cases ha : ls.availability id' with
      | ready =>
        constructor
        · rintro ⟨⟩
          exact ⟨rfl, ha⟩
        · rintro ⟨rfl, -⟩
          rfl
      | busy =>
        simp only [reduceCtorEq, false_iff]
        rintro ⟨rfl, h⟩
        simp [ha] at h
      | gone =>
        simp only [reduceCtorEq, false_iff]
        rintro ⟨rfl, h⟩
        simp [ha] at h

theorem delivery?_eq_some_iff :
    p.delivery? ls r = some δ ↔
      r = δ.report ∧ p.listener = some δ.listener ∧ δ.listener ∉ ls.dropped ∧
        δ.listener ∉ ls.busy ∧ p.lastProcessed ≤ δ.report.processed := by
  have hfate : p.delivery? ls r = some δ ↔ r = δ.report ∧ p.fate ls r = .delivered δ.listener := by
    unfold delivery?
    cases p.fate ls r with
    | delivered id =>
      simp only [Option.some.injEq, Fate.delivered.injEq]
      constructor
      · rintro rfl
        exact ⟨rfl, rfl⟩
      · rintro ⟨rfl, rfl⟩
        rfl
    | _ => simp
  rw [hfate, fate_eq_delivered_iff]
  constructor
  · rintro ⟨rfl, hle, hlistener, hdropped, hbusy⟩
    exact ⟨rfl, hlistener, hdropped, hbusy, hle⟩
  · rintro ⟨rfl, hlistener, hdropped, hbusy, hle⟩
    exact ⟨rfl, hle, hlistener, hdropped, hbusy⟩

theorem deliveries_ofFate (p : Progress) (ls : Listeners) (r : Report) :
    (Activity.ofFate p r (p.fate ls r)).deliveries = (p.delivery? ls r).toList := by
  unfold delivery?
  cases p.fate ls r <;> rfl

theorem after_fate (p : Progress) (ls : Listeners) (r : Report) :
    p.after r (p.fate ls r) = p.counting (p.delivery? ls r) := by
  unfold delivery?
  cases p.fate ls r <;> rfl

end Progress

-- ---------------------------------------------------------------------------
-- One command
-- ---------------------------------------------------------------------------

namespace Session

/-- The delivery that a command causes, if any. -/
def due (s : Session) (c : Command) : Option Delivery :=
  (c.report? (s.options.expectedLen.getD 0) s.cursor.ingested).bind
    (s.progress.delivery? { s.listeners with busy := c.borrowed ++ s.listeners.busy })

/-- What a command does to the part of a session that decides on deliveries. -/
structure Effect (s : Session) (c : Command) (t : Step Reply) : Prop where
  deliveries : t.activity.deliveries = (s.due c).toList
  last : t.session.progress.lastProcessed = (s.progress.counting (s.due c)).lastProcessed
  listener : t.session.progress.listener =
    match c.core with
    | .attach => some s.listeners.created
    | .reattach id => some id
    | .detach => none
    | _ => s.progress.listener
  created : t.session.listeners.created =
    s.listeners.created + if c.core = .attach then 1 else 0
  dropped : ∀ id, id ∈ t.session.listeners.dropped ↔ c.core = .drop id ∨ id ∈ s.listeners.dropped
  busy : t.session.listeners.busy = s.listeners.busy
  ingested : t.session.cursor.ingested = s.cursor.ingested + c.chunk.length
  options : t.session.options = s.options

theorem scan_eq {α : Type} (s : Session) (m : Scan α) :
    (s.scan m).session = { s with cursor := Outcome.cursor (m s.cursor) } ∧
      (s.scan m).activity.deliveries = [] := by
  unfold scan
  cases m s.cursor <;> exact ⟨rfl, rfl⟩

theorem ingested_walk (n : Nat) (c : Cursor) : (c.walk n).2.ingested = c.ingested := by
  induction n generalizing c with
  | zero => rfl
  | succ n ih =>
    have hadv := Stepwise.advance.ingested_eq c
    unfold Cursor.walk
    cases h : c.advance with
    | error e d =>
      rw [h] at hadv
      exact hadv
    | ok x d =>
      rw [h] at hadv
      exact (ih d).trans hadv

/-- A command that only moves the cursor asks for no report. -/
theorem act_quiet (s : Session) (k : CursorCommand)
    (hk : (Command.cursor k).report? 0 0 = none) :
    ∃ d, (s.act k).session = { s with cursor := d } ∧ d.ingested = s.cursor.ingested ∧
      (s.act k).activity.deliveries = [] := by
  cases k with
  | extend chunk => simp [Command.report?] at hk
  | report r => simp [Command.report?] at hk
  | advance =>
    obtain ⟨hsession, hdeliveries⟩ := s.scan_eq Cursor.advance
    exact ⟨_, hsession, Stepwise.advance.ingested_eq _, hdeliveries⟩
  | keyword k =>
    obtain ⟨hsession, hdeliveries⟩ := s.scan_eq k.matchAt
    exact ⟨_, hsession, (Stepwise.matchAt k).ingested_eq _, hdeliveries⟩
  | advanceBy n => exact ⟨_, rfl, ingested_walk n _, rfl⟩
  | advanceWhile p dst =>
    exact ⟨_, rfl, (Stepwise.run p.judge 0 dst).ingested_eq s.cursor, rfl⟩
  | skipWhile p => exact ⟨_, rfl, (Stepwise.skipWhile p.judge 0).ingested_eq s.cursor, rfl⟩
  | errorHere f => exact ⟨s.cursor, rfl, rfl, rfl⟩
  | describe => exact ⟨s.cursor, rfl, rfl, rfl⟩

theorem report_eq (s : Session) (r : Report) :
    (s.report r).activity.deliveries = (s.progress.delivery? s.listeners r).toList ∧
      (s.report r).session =
        { s with progress := s.progress.counting (s.progress.delivery? s.listeners r) } :=
  ⟨Progress.deliveries_ofFate _ _ _,
    congrArg (fun p => { s with progress := p }) (Progress.after_fate _ _ _)⟩

/-- A chunk asks for one report, on all that was taken in with it. -/
theorem extend_eq (s : Session) (chunk : List Char) :
    (s.extend chunk).activity.deliveries = (s.due (.ingest chunk)).toList ∧
      (s.extend chunk).session =
        { s with
          cursor := s.cursor.extend chunk
          progress := s.progress.counting (s.due (.ingest chunk)) } :=
  report_eq { s with cursor := s.cursor.extend chunk }
    ⟨s.cursor.ingested + chunk.length, s.options.expectedLen.getD 0⟩

/-- The effect of a command that is about the cursor, whether or not it asks for a report. -/
theorem Effect.of_cursor {s : Session} {c : Command} {t : Step Reply} {d : Cursor}
    (hc : (∃ k, c = .cursor k) ∨ ∃ chunk, c = .ingest chunk)
    (hdeliveries : t.activity.deliveries = (s.due c).toList)
    (hsession : t.session = { s with cursor := d, progress := s.progress.counting (s.due c) })
    (hingested : d.ingested = s.cursor.ingested + c.chunk.length) : Effect s c t := by
  have hcore : c.core = c := by rcases hc with ⟨k, rfl⟩ | ⟨chunk, rfl⟩ <;> rfl
  refine ⟨hdeliveries, by rw [hsession], ?_, ?_, ?_, by rw [hsession], ?_, by rw [hsession]⟩
  · rw [hsession, hcore]
    rcases hc with ⟨k, rfl⟩ | ⟨chunk, rfl⟩ <;> rfl
  · rw [hsession, hcore]
    rcases hc with ⟨k, rfl⟩ | ⟨chunk, rfl⟩ <;> simp
  · rw [hsession, hcore]
    rcases hc with ⟨k, rfl⟩ | ⟨chunk, rfl⟩ <;> simp
  · rw [hsession]
    exact hingested

theorem effect_act (s : Session) (k : CursorCommand) :
    Effect s (.cursor k) (s.perform (.cursor k)) := by
  cases hk : (Command.cursor k).report? 0 0 with
  | none =>
    obtain ⟨d, hsession, hingested, hdeliveries⟩ := s.act_quiet k hk
    have hquiet : s.due (.cursor k) = none ∧ (Command.cursor k).chunk = [] := by
      cases k <;> first | exact ⟨rfl, rfl⟩ | simp [Command.report?] at hk
    refine .of_cursor (d := d) (.inl ⟨k, rfl⟩) ?_ ?_ ?_
    · rw [hquiet.1]
      exact hdeliveries
    · rw [hquiet.1]
      exact hsession
    · rw [hquiet.2]
      exact hingested
  | some r =>
    cases k with
    | extend chunk =>
      obtain ⟨hdeliveries, hsession⟩ := s.extend_eq chunk
      exact .of_cursor (.inl ⟨_, rfl⟩) hdeliveries hsession rfl
    | report r =>
      obtain ⟨hdeliveries, hsession⟩ := report_eq s r
      exact .of_cursor (d := s.cursor) (.inl ⟨_, rfl⟩) hdeliveries hsession rfl
    | _ => simp [Command.report?] at hk

theorem effect_ingest (s : Session) (chunk : List Char) :
    Effect s (.ingest chunk) (s.perform (.ingest chunk)) := by
  obtain ⟨hdeliveries, hsession⟩ := s.extend_eq chunk
  obtain ⟨hprimed, hquiet⟩ := (s.extend chunk).session.scan_eq Cursor.prime
  refine .of_cursor (d := Outcome.cursor (Cursor.prime (s.cursor.extend chunk))) (.inr ⟨_, rfl⟩)
    ?_ ?_ ?_
  · show (s.extend chunk).activity.deliveries ++
      ((s.extend chunk).session.scan Cursor.prime).activity.deliveries ++ [] = _
    rw [hdeliveries, hquiet, List.append_nil, List.append_nil]
  · show ((s.extend chunk).session.scan Cursor.prime).session = _
    rw [hprimed, hsession]
  · exact Stepwise.prime.ingested_eq _

theorem effect_perform (s : Session) (c : Command) : Effect s c (s.perform c) := by
  induction c generalizing s with
  | cursor k => exact effect_act s k
  | ingest chunk => exact effect_ingest s chunk
  | attach => exact ⟨rfl, rfl, rfl, rfl, by simp [perform, Command.core], rfl, rfl, rfl⟩
  | reattach id => exact ⟨rfl, rfl, rfl, rfl, by simp [perform, Command.core], rfl, rfl, rfl⟩
  | detach => exact ⟨rfl, rfl, rfl, rfl, by simp [perform, Command.core], rfl, rfl, rfl⟩
  | drop id =>
    exact ⟨rfl, rfl, rfl, rfl, by simp [perform, Command.core, eq_comm], rfl, rfl, rfl⟩
  | whileBusy id c ih =>
    have h := ih { s with listeners := { s.listeners with busy := id :: s.listeners.busy } }
    have hdue : s.due (.whileBusy id c) =
        due { s with listeners := { s.listeners with busy := id :: s.listeners.busy } } c := by
      simp only [due, Command.report?, Command.borrowed, List.append_assoc, List.singleton_append]
    exact ⟨hdue ▸ h.deliveries, hdue ▸ h.last, h.listener, h.created, h.dropped, rfl, h.ingested,
      h.options⟩

-- ---------------------------------------------------------------------------
-- Whole histories
-- ---------------------------------------------------------------------------

/-- All deliveries of a run, the first one first. -/
def delivered (s : Session) (history : List Command) : List Delivery :=
  (s.run history).1.flatMap fun t => t.activity.deliveries

theorem run_concat (s : Session) (history : List Command) (c : Command) :
    s.run (history ++ [c]) =
      ((s.run history).1 ++ [(s.run history).2.perform c],
        ((s.run history).2.perform c).session) := by
  induction history generalizing s with
  | nil => rfl
  | cons b rest ih => simp only [List.cons_append, run, ih]

/-- The session knows what its past, latest command first, and its deliveries say. -/
structure Tracks (options : Options) (past : List Command) (deliveries : List Delivery)
    (s : Session) : Prop where
  options : s.options = options
  ingested : s.cursor.ingested = History.taken past
  created : s.listeners.created = History.created past
  listener : s.progress.listener = History.attached past
  dropped : ∀ id, id ∈ s.listeners.dropped ↔ ∃ c ∈ past, c.core = .drop id
  busy : s.listeners.busy = []
  last : s.progress.lastProcessed = History.lastCount deliveries
  bound : ∀ δ ∈ deliveries, δ.report.processed ≤ s.progress.lastProcessed
  ordered : deliveries.Pairwise fun δ ε => δ.report.processed ≤ ε.report.processed

namespace Tracks

variable {options : Options} {past : List Command} {deliveries : List Delivery} {s : Session}

theorem new (options : Options) : Tracks options [] [] (new options) where
  options := rfl
  ingested := rfl
  created := rfl
  listener := rfl
  dropped := by simp [Session.new]
  busy := rfl
  last := rfl
  bound := by simp
  ordered := .nil

/-- When a delivery is due, in the words of the past. -/
theorem due_iff (h : Tracks options past deliveries s) {c : Command} {δ : Delivery} :
    s.due c = some δ ↔
      c.report? (options.expectedLen.getD 0) (History.taken past) = some δ.report ∧
        History.attached past = some δ.listener ∧
        (∀ earlier ∈ past, earlier.core ≠ .drop δ.listener) ∧
        δ.listener ∉ c.borrowed ∧ History.lastCount deliveries ≤ δ.report.processed := by
  unfold due
  simp only [Option.bind_eq_some_iff, Progress.delivery?_eq_some_iff, h.options, h.ingested,
    h.listener, h.dropped, h.busy, h.last, List.append_nil, not_exists, not_and]
  constructor
  · rintro ⟨r, hr, rfl, hrest⟩
    exact ⟨hr, hrest⟩
  · rintro ⟨hr, hrest⟩
    exact ⟨_, hr, rfl, hrest⟩

theorem lastProcessed_le_of_due (h : Tracks options past deliveries s) {c : Command}
    {δ : Delivery} (hδ : s.due c = some δ) : s.progress.lastProcessed ≤ δ.report.processed := by
  rw [h.last]
  exact (h.due_iff.mp hδ).2.2.2.2

theorem perform (h : Tracks options past deliveries s) (c : Command) :
    Tracks options (c :: past) (deliveries ++ (s.due c).toList) (s.perform c).session := by
  have heffect := s.effect_perform c
  have hlast : (s.perform c).session.progress.lastProcessed =
      History.lastCount (deliveries ++ (s.due c).toList) := by
    rw [heffect.last]
    cases s.due c with
    | none => simpa [Progress.counting] using h.last
    | some δ => simp [Progress.counting, History.lastCount]
  have hle : s.progress.lastProcessed ≤ (s.perform c).session.progress.lastProcessed := by
    rw [heffect.last]
    cases hδ : s.due c with
    | none => exact Nat.le_refl _
    | some δ => exact h.lastProcessed_le_of_due hδ
  refine ⟨?_, ?_, ?_, ?_, ?_, ?_, hlast, ?_, ?_⟩
  · rw [heffect.options, h.options]
  · rw [heffect.ingested, h.ingested, Nat.add_comm]
    rfl
  · rw [heffect.created, h.created, History.created, History.created, List.countP_cons]
    simp
  · rw [heffect.listener, h.listener, h.created]
    rfl
  · intro id
    rw [heffect.dropped, h.dropped]
    simp
  · rw [heffect.busy, h.busy]
  · intro δ hδ
    rcases List.mem_append.mp hδ with hδ | hδ
    · exact Nat.le_trans (h.bound δ hδ) hle
    · rw [Option.mem_toList] at hδ
      rw [heffect.last, hδ]
      exact Nat.le_refl _
  · refine List.pairwise_append.mpr ⟨h.ordered, ?_, fun δ hδ ε hε => ?_⟩
    · cases s.due c with
      | none => exact .nil
      | some δ => exact List.pairwise_singleton _ _
    · rw [Option.mem_toList] at hε
      exact Nat.le_trans (h.bound δ hδ) (h.lastProcessed_le_of_due hε)

/-- After every history a session knows what that history says. -/
theorem run (options : Options) (history : List Command) :
    Tracks options history.reverse ((Session.new options).delivered history)
      ((Session.new options).run history).2 := by
  induction history using List.reverseRecOn with
  | nil => exact .new options
  | append_singleton history c ih =>
    have hdelivered : (Session.new options).delivered (history ++ [c]) =
        (Session.new options).delivered history ++
          (((Session.new options).run history).2.due c).toList := by
      rw [delivered, run_concat, List.flatMap_append, List.flatMap_singleton,
        (effect_perform _ c).deliveries]
      rfl
    rw [List.reverse_append, hdelivered, run_concat]
    exact ih.perform c

end Tracks

/-- After any history, a command's report is delivered exactly if a listener is
attached, lives, is not busy and the report does not fall behind. It is then
delivered once. So counts never go back in a session, the session knows the last
one, and all that is about progress alone makes no difference to the rest. -/
theorem delivery_law (options : Options) (history : List Command) :
    (∀ c, (((new options).run history).2.perform c).activity.deliveries.length ≤ 1 ∧
      ∀ δ, δ ∈ (((new options).run history).2.perform c).activity.deliveries ↔
        c.report? (options.expectedLen.getD 0) (History.taken history.reverse) =
          some δ.report ∧
        History.attached history.reverse = some δ.listener ∧
        (∀ earlier ∈ history, earlier.core ≠ .drop δ.listener) ∧
        δ.listener ∉ c.borrowed ∧
        History.lastCount ((new options).delivered history) ≤ δ.report.processed) ∧
    ((new options).delivered history).Pairwise
      (fun δ ε => δ.report.processed ≤ ε.report.processed) ∧
    ((new options).run history).2.progress.lastProcessed =
      History.lastCount ((new options).delivered history) ∧
    ∀ other, essence other = essence history →
      (new options).observed other = (new options).observed history ∧
      ((new options).run other).2.cursor = ((new options).run history).2.cursor ∧
      ∀ {σ ω : Type} (a : Assembler σ ω) (held : σ) (p : Option Plan),
        (((new options).run other).2.finalize a held p).outcome =
          (((new options).run history).2.finalize a held p).outcome := by
  have htracks := Tracks.run options history
  refine ⟨fun c => ?_, htracks.ordered, htracks.last, fun other hother => ?_⟩
  · rw [(effect_perform _ c).deliveries]
    refine ⟨Option.length_toList_le, fun δ => ?_⟩
    rw [Option.mem_toList, htracks.due_iff]
    simp only [List.mem_reverse]
  · have hself : Alike (new options) (new options) := ⟨rfl, rfl⟩
    obtain ⟨hobserved, hlast⟩ := observed_essence hself history
    obtain ⟨hobserved', hlast'⟩ := observed_essence hself other
    rw [hother] at hobserved' hlast'
    refine ⟨hobserved'.trans hobserved.symm, hlast'.cursor.trans hlast.cursor.symm,
      fun a held p => ?_⟩
    exact (outcome_finalize a hlast' held p).trans (outcome_finalize a hlast held p).symm

-- A busy listener misses a report, a new one is held to the counts of the old one.
example :
    (new {}).delivered
      [.attach, .ingest ['a', 'b'], .whileBusy 0 (.ingest ['c']), .attach, .cursor (.report ⟨1, 9⟩),
        .cursor (.report ⟨2, 9⟩), .drop 1, .cursor (.report ⟨5, 9⟩), .reattach 0,
        .cursor (.extend ['d'])] =
      [⟨0, ⟨2, 0⟩⟩, ⟨1, ⟨2, 9⟩⟩, ⟨0, ⟨4, 0⟩⟩] := by
  decide

end Session

end TextStream
