import TextStream.Cursor.Scan
import TextStream.Grammar.Trail

/-!
# Key-value pairs

A list of pairs `key=value` with semicolons between them. Something must follow
an equals sign and a semicolon.
-/

namespace TextStream.Pairs

/-- One pair, from the first code point of its key up to a semicolon or the end. -/
def pair : Scan (String × String) := fun c =>
  let (key, d) := c.copy (· != '=')
  match d.current with
  | none => .error .endOfFile d
  | some _ =>
    match d.advance with
    | .error e f => .error e f
    | .ok _ f =>
      let (value, g) := f.copy (· != ';')
      .ok (key, value) g

theorem pending_pair {c d : Cursor} {kv : String × String} (h : pair c = .ok kv d) :
    d.pending < c.pending := by
  unfold pair at h
  have hkey := c.pending_copy_le (· != '=')
  split at h
  next key g hg =>
  rw [hg] at hkey
  split at h
  · simp at h
  · next x hx =>
    split at h
    · simp at h
    · next y f hf =>
      obtain ⟨rfl, -⟩ := Cursor.advance_eq_ok hf
      simp only [EStateM.Result.ok.injEq] at h
      obtain ⟨-, rfl⟩ := h
      exact Nat.lt_of_le_of_lt (Cursor.pending_copy_le _ _)
        (Nat.lt_of_lt_of_le (Cursor.pending_move_lt hx) hkey)

def pairs (c : Cursor) : Trail Event :=
  match c.current with
  | none => .report .complete c (.done c)
  | some _ =>
    match _h : pair c with
    | .error e d => .fail e d
    | .ok (key, value) d =>
      .report (.child (.string value) (some key)) d <|
        if d.current = some ';' then
          match _hd : d.advance with
          | .error e f => .fail e f
          | .ok _ f => pairs f
        else pairs d
termination_by c.pending
decreasing_by
  · obtain ⟨rfl, -⟩ := Cursor.advance_eq_ok _hd
    exact Nat.lt_of_le_of_lt (Cursor.pending_move_le d) (pending_pair _h)
  · exact pending_pair _h

def finish : Grammar := fun c =>
  .report (.start (.object [])) c (pairs c)

end TextStream.Pairs
