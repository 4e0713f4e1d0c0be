import TextStream.Assembly.Tree
import TextStream.Proofs.Value.Members

/-!
# What a tree assembler puts out

Commands come in any order, with children before any root, of the wrong kind or
after the root was complete. The output depends on the commands behind the last
take alone, and among these on the last root and the children that fit it: a
scalar stays as it is, an array is appended to, an object takes the last value
given for each key. The roots that a grammar reports are cases of this.
-/

namespace TextStream

namespace Members

variable {α : Type} {ms : Members α}

/-- To insert into members that are in order is to collect both. -/
theorem foldl_insert_of_sorted (h : ms.Sorted) (es : List (String × α)) :
    es.foldl (fun ms e => insert e.1 e.2 ms) ms = ofList (ms ++ es) := by
  have hms : ofList ms = ms := (collects_iff.mp h.collects).symm
  rw [ofList, List.foldl_append]
  exact congrArg (fun start => es.foldl (fun ms e => insert e.1 e.2 ms) start) hms.symm

theorem find?_ofList_append (h : ms.Sorted) (es : List (String × α)) (key : String) :
    find? key (ofList (ms ++ es)) = (find? key es.reverse).or (find? key ms) := by
  rw [(collects_ofList _).find?, List.reverse_append, find?_append, h.find?_reverse]

end Members

namespace Tree

namespace Command

def isTake : Command → Bool
  | take => true
  | event _ => false

/-- The value of a child without a key. -/
def item? : Command → Option Value
  | event (.child v none) => some v
  | _ => none

/-- A child with its key. -/
def entry? : Command → Option (String × Value)
  | event (.child v (some key)) => some (key, v)
  | _ => none

/-- A command that neither gives a root nor takes it away. -/
inductive Keeps : Command → Prop
  | child (v : Value) (key : Option String) : Keeps (event (.child v key))
  | complete : Keeps (event .complete)

theorem keeps_of_ne {cmd : Command} (hstart : ∀ t, cmd ≠ event (.start t))
    (htake : cmd.isTake = false) : cmd.Keeps := by
  cases cmd with
  | take => exact nomatch htake
  | event e =>
    cases e with
    | start t => exact absurd rfl (hstart t)
    | child v key => exact .child v key
    | complete => exact .complete

end Command

variable {cmds : List Command} {held : Held} {v : Value}

/-- What is held after some commands. -/
def after (held : Held) (cmds : List Command) : Held :=
  cmds.foldl perform held

theorem after_append (held : Held) (first second : List Command) :
    after held (first ++ second) = after (after held first) second :=
  List.foldl_append

-- ---------------------------------------------------------------------------
-- Children of one root
-- ---------------------------------------------------------------------------

theorem perform_complete (held : Held) : perform held (.event .complete) = held := by
  cases held with
  | none => rfl
  | some v => cases v <;> rfl

/-- A child that fits neither an array nor an object is left out. -/
theorem perform_child_of_not_fits {key : Option String} (h : fits held key = false) (v : Value) :
    perform held (.event (.child v key)) = held := by
  cases held with
  | none => cases key <;> rfl
  | some root =>
    cases root with
    | array items =>
      cases key with
      | none => exact nomatch h
      | some key => rfl
    | object ms =>
      cases key with
      | none => rfl
      | some key => exact nomatch h
    | _ => cases key <;> rfl

theorem not_fits_of_isScalar (h : v.isScalar = true) (key : Option String) :
    fits (some v) key = false := by
  cases v with
  | array items => exact nomatch h
  | object ms => exact nomatch h
  | _ => rfl

/-- A root that no child fits stays as it is. -/
theorem after_of_fixed (h : ∀ cmd ∈ cmds, cmd.Keeps)
    (hfixed : ∀ key, fits held key = false) : after held cmds = held := by
  induction cmds with
  | nil => rfl
  | cons cmd rest ih =>
    have hstep : perform held cmd = held := by
      cases h cmd List.mem_cons_self with
      | child v key => exact perform_child_of_not_fits (hfixed key) v
      | complete => exact perform_complete held
    show after (perform held cmd) rest = held
    rw [hstep]
    exact ih fun c hc => h c (List.mem_cons_of_mem _ hc)

theorem after_array (h : ∀ cmd ∈ cmds, cmd.Keeps) (items : List Value) :
    after (some (.array items)) cmds =
      some (.array (items ++ cmds.filterMap Command.item?)) := by
  induction cmds generalizing items with
  | nil => simp [after]
  | cons cmd rest ih =>
    have hrest : ∀ cmd ∈ rest, cmd.Keeps := fun c hc => h c (List.mem_cons_of_mem _ hc)
    cases h cmd List.mem_cons_self with
    | child v key =>
      cases key with
      | none => exact (ih hrest (items ++ [v])).trans (by simp [Command.item?])
      | some key => exact ih hrest items
    | complete => exact ih hrest items

theorem after_object (h : ∀ cmd ∈ cmds, cmd.Keeps) (ms : Members Value) :
    after (some (.object ms)) cmds =
      some (.object ((cmds.filterMap Command.entry?).foldl
        (fun ms e => Members.insert e.1 e.2 ms) ms)) := by
  induction cmds generalizing ms with
  | nil => rfl
  | cons cmd rest ih =>
    have hrest : ∀ cmd ∈ rest, cmd.Keeps := fun c hc => h c (List.mem_cons_of_mem _ hc)
    cases h cmd List.mem_cons_self with
    | child v key =>
      cases key with
      | none => exact ih hrest ms
      | some key => exact ih hrest (Members.insert key v ms)
    | complete => exact ih hrest ms

theorem exists_after_some (h : ∀ cmd ∈ cmds, cmd.Keeps) (t : Value) :
    ∃ v, after (some t) cmds = some v := by
  cases t with
  | array items => exact ⟨_, after_array h items⟩
  | object ms => exact ⟨_, after_object h ms⟩
  | _ => exact ⟨_, after_of_fixed h (not_fits_of_isScalar (by rfl))⟩

-- ---------------------------------------------------------------------------
-- Roots as grammars report them
-- ---------------------------------------------------------------------------

theorem foldl_receive (held : Held) (events : List Event) :
    events.foldl receive held = after held (events.map Command.event) := by
  rw [after, List.foldl_map]
  rfl

theorem keeps_children {α : Type} {child : α → Event}
    (h : ∀ a, (Command.event (child a)).Keeps) (as : List α) :
    ∀ cmd ∈ (as.map child ++ [Event.complete]).map Command.event, cmd.Keeps := by
  intro cmd hcmd
  simp only [List.map_append, List.map_map, List.map_cons, List.map_nil, List.mem_append,
    List.mem_map, Function.comp_apply, List.mem_singleton] at hcmd
  rcases hcmd with ⟨a, -, rfl⟩ | rfl
  · exact h a
  · exact .complete

theorem foldl_array_root (held : Held) (vs : List Value) :
    (Event.start (.array []) :: (vs.map (fun v => Event.child v none) ++ [.complete])).foldl
      receive held = some (.array vs) := by
  rw [List.foldl_cons, foldl_receive]
  refine (after_array (keeps_children (fun v => .child v none) vs) []).trans ?_
  simp [Command.item?, Function.comp_def, List.filterMap_map]

theorem foldl_object_root (held : Held) (es : List (String × Value)) :
    (Event.start (.object []) ::
      (es.map (fun e => Event.child e.2 (some e.1)) ++ [.complete])).foldl receive held =
        some (.object (Members.ofList es)) := by
  rw [List.foldl_cons, foldl_receive]
  refine (after_object (keeps_children (fun e => .child e.2 (some e.1)) es) []).trans ?_
  simp [Command.entry?, Function.comp_def, List.filterMap_map, List.filterMap_cons, Members.ofList]

/-- A scalar root takes no children, so reporting it as its own child changes nothing. -/
theorem foldl_scalar_root (held : Held) (h : v.isScalar = true) :
    [Event.start v, .child v none, .complete].foldl receive held = some v := by
  rw [List.foldl_cons, foldl_receive]
  exact after_of_fixed (keeps_children (fun v => .child v none) [v]) (not_fits_of_isScalar h)

-- ---------------------------------------------------------------------------
-- Any commands
-- ---------------------------------------------------------------------------

/-- The commands behind the last take, or all if there is none. -/
def sinceTake (cmds : List Command) : List Command :=
  cmds.rtakeWhile fun cmd => !cmd.isTake

theorem isTake_of_mem_sinceTake {cmd : Command} (h : cmd ∈ sinceTake cmds) :
    cmd.isTake = false := by
  simpa using List.mem_rtakeWhile_imp h

/-- Nothing before the last take matters. -/
theorem after_sinceTake (cmds : List Command) : after none (sinceTake cmds) = after none cmds := by
  induction cmds using List.reverseRecOn with
  | nil => rfl
  | append_singleton cmds cmd ih =>
    unfold sinceTake at ih ⊢
    cases cmd with
    | take =>
      rw [List.rtakeWhile_concat_neg _ _ _ (by simp [Command.isTake]), after_append]
      rfl
    | event e =>
      rw [List.rtakeWhile_concat_pos _ _ _ (by simp [Command.isTake]), after_append, after_append,
        ih]

/-- `t` is the last root that was given, and `since` are the commands behind it. -/
structure LastRoot (cmds : List Command) (t : Value) (since : List Command) : Prop where
  given : ∃ before, cmds = before ++ Command.event (.start t) :: since
  last : ∀ u, Command.event (.start u) ∉ since

theorem LastRoot.keeps {t : Value} {since : List Command} (h : LastRoot (sinceTake cmds) t since) :
    ∀ cmd ∈ since, cmd.Keeps := by
  intro cmd hcmd
  obtain ⟨before, hrecent⟩ := h.given
  have hmem : cmd ∈ sinceTake cmds := by simp [hrecent, hcmd]
  exact Command.keeps_of_ne (fun u hu => h.last u (hu ▸ hcmd)) (isTake_of_mem_sinceTake hmem)

/-- The last root is what the commands behind it start from. -/
theorem LastRoot.after_eq {t : Value} {since : List Command}
    (h : LastRoot (sinceTake cmds) t since) : after none cmds = after (some t) since := by
  obtain ⟨before, hrecent⟩ := h.given
  rw [← after_sinceTake, hrecent, after_append]
  rfl

/-- Where roots are given, one of them is the last. -/
theorem exists_lastRoot {t : Value} (h : Command.event (.start t) ∈ cmds) :
    ∃ u since, LastRoot cmds u since := by
  induction cmds using List.reverseRecOn with
  | nil => exact nomatch h
  | append_singleton cmds cmd ih =>
    by_cases hcmd : ∃ u, cmd = .event (.start u)
    · obtain ⟨u, rfl⟩ := hcmd
      exact ⟨u, [], ⟨cmds, rfl⟩, fun w => List.not_mem_nil⟩
    · have hne : ∀ u, Command.event (.start u) ≠ cmd := fun u hu => hcmd ⟨u, hu.symm⟩
      obtain ⟨u, since, ⟨before, rfl⟩, hlast⟩ := ih (by simpa [hne] using h)
      exact ⟨u, since ++ [cmd], ⟨before, by simp⟩, by simpa [hne] using hlast⟩

theorem after_eq_none_iff (cmds : List Command) :
    after none cmds = none ↔ ∀ t, Command.event (.start t) ∉ sinceTake cmds := by
  constructor
  · intro hnone t hmem
    obtain ⟨u, since, hroot⟩ := exists_lastRoot hmem
    obtain ⟨v, hv⟩ := exists_after_some hroot.keeps u
    rw [hroot.after_eq, hv] at hnone
    exact nomatch hnone
  · intro hstart
    rw [← after_sinceTake]
    refine after_of_fixed (fun cmd hcmd => ?_) fun key => rfl
    exact Command.keeps_of_ne (fun t ht => hstart t (ht ▸ hcmd)) (isTake_of_mem_sinceTake hcmd)

/-- The output after any commands. There is none exactly if no root was given
behind the last take. Else the last root given decides: a scalar is put out as it
is, an array with the children without a key behind its items, an object with the
last child given for each key. Completion and children that do not fit change
nothing. -/
theorem output_follows_last_root (cmds : List Command) :
    let recent := sinceTake cmds
    let output := assembler.output (after none cmds)
    (output = none ↔ ∀ t, Command.event (.start t) ∉ recent) ∧
    (∀ t, Command.event (.start t) ∈ recent → ∃ u since, LastRoot recent u since) ∧
    (∀ t since, LastRoot recent t since →
      (t.isScalar = true → output = some t) ∧
      (∀ items, t = .array items →
        output = some (.array (items ++ since.filterMap Command.item?))) ∧
      ∀ ms, t = .object ms → Members.Sorted ms →
        ∃ ns, output = some (.object ns) ∧ Members.Sorted ns ∧
          ∀ key, Members.find? key ns =
            (Members.find? key (since.filterMap Command.entry?).reverse).or
              (Members.find? key ms)) ∧
    after none (cmds ++ [.event .complete]) = after none cmds ∧
    ∀ v key, (∀ items, after none cmds = some (.array items) → key.isSome = true) →
      (∀ ms, after none cmds = some (.object ms) → key = none) →
      after none (cmds ++ [.event (.child v key)]) = after none cmds := by
  intro recent output
  refine ⟨after_eq_none_iff cmds, fun t ht => exists_lastRoot ht, ?_, ?_, ?_⟩
  · intro t since hroot
    have houtput : output = after (some t) since := hroot.after_eq
    rw [houtput]
    refine ⟨fun ht => after_of_fixed hroot.keeps (not_fits_of_isScalar ht), ?_, ?_⟩
    · rintro items rfl
      exact after_array hroot.keeps items
    · rintro ms rfl hms
      refine ⟨_, after_object hroot.keeps ms, ?_, fun key => ?_⟩
      · rw [Members.foldl_insert_of_sorted hms]
        exact (Members.collects_ofList _).sorted
      · rw [Members.foldl_insert_of_sorted hms, Members.find?_ofList_append hms]
  · rw [after_append]
    exact perform_complete _
  · intro v key harray hobject
    rw [after_append]
    refine perform_child_of_not_fits ?_ v
    unfold fits
    split
    · next ms k hroot => exact nomatch hobject ms hroot
    · next items hroot => exact nomatch harray items hroot
    · rfl

end Tree

end TextStream
