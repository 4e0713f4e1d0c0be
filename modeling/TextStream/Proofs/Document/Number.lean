import TextStream.Grammar.Document.Number
import TextStream.Proofs.Cursor.Passage
import TextStream.Proofs.Document.Language

/-!
# Reading numbers

Each part of a number is read exactly where its text is ahead and ends there:
what comes next would not make the part longer. Conversion takes the text of a
numeral for what the numeral means.
-/

namespace TextStream.Document

variable {c d : Cursor} {s : String}

-- ---------------------------------------------------------------------------
-- Marks and digits
-- ---------------------------------------------------------------------------

theorem mark_eq_ok_iff {p : Char → Bool} :
    mark p c = .ok s d ↔
      s = "" ∧ d = c ∧ c.Stops p ∨
        ∃ x, p x = true ∧ s = x.toString ∧ Passes c [x] d ∧ d.isSeated = true := by
  unfold mark
  constructor
  · intro h
    split at h
    · next hx =>
      obtain ⟨rfl, rfl⟩ := EStateM.Result.ok.inj h
      exact .inl ⟨rfl, rfl, fun x h => by simp [hx] at h⟩
    · next x hx =>
      split at h
      · next hp =>
        split at h
        · next y e hy =>
          obtain ⟨rfl, rfl⟩ := EStateM.Result.ok.inj h
          obtain ⟨rfl, hseat⟩ := Cursor.advance_eq_ok_iff.mp hy
          exact .inr ⟨x, hp, rfl, .one hx, by simp [Cursor.isSeated, hseat]⟩
        · simp at h
      · next hp =>
        obtain ⟨rfl, rfl⟩ := EStateM.Result.ok.inj h
        exact .inl ⟨rfl, rfl, fun y h => by simp_all⟩
  · rintro (⟨rfl, rfl, hstop⟩ | ⟨x, hp, rfl, h, hd⟩)
    · cases hx : d.current with
      | none => rfl
      | some x => simp [hstop x hx]
    · obtain ⟨y, hy⟩ := Option.isSome_iff_exists.mp hd
      cases h with
      | cons hx h =>
        cases h
        have hadv := Cursor.advance_eq_ok_iff.mpr ⟨rfl, hy⟩
        simp [hx, hp, hadv]

/-- The text of a mark that may be absent. -/
def Marked (p : Char → Bool) (w : List Char) : Prop :=
  w = [] ∨ ∃ x, p x = true ∧ w = [x]

theorem Marked.of_mark {p : Char → Bool} (h : mark p c = .ok s d) :
    Marked p s.toList ∧ Passes c s.toList d := by
  rcases mark_eq_ok_iff.mp h with ⟨rfl, rfl, -⟩ | ⟨x, hp, rfl, hx, -⟩
  · exact ⟨.inl rfl, .nil _⟩
  · exact ⟨.inr ⟨x, hp, by simp⟩, by simpa using hx⟩

theorem Marked.mark {p : Char → Bool} {w : List Char} (hw : Marked p w) (h : Passes c w d)
    (hseat : d.isSeated = true) (hstop : d.Stops p) : mark p c = .ok (String.ofList w) d := by
  rw [mark_eq_ok_iff]
  rcases hw with rfl | ⟨x, hp, rfl⟩
  · cases h
    exact .inl ⟨rfl, rfl, hstop⟩
  · exact .inr ⟨x, hp, rfl, h, hseat⟩

theorem digits_eq_ok_iff :
    digits c = .ok s d ↔ Digits s.toList ∧ Passes c s.toList d ∧ d.Stops Char.isDigit := by
  unfold digits
  constructor
  · intro h
    split at h
    · simp at h
    · next x hx =>
      split at h
      · next hdigit =>
        split at h
        next run e hrun =>
        obtain ⟨rfl, rfl⟩ := EStateM.Result.ok.inj h
        obtain ⟨hp, hw, hstop⟩ := Cursor.copy_eq_iff.mp hrun
        refine ⟨⟨?_, hw⟩, hp, hstop⟩
        -- the first digit is current, so the run is not empty
        intro hnil
        rw [hnil] at hp
        cases hp
        simp [hstop x hx] at hdigit
      · simp at h
  · rintro ⟨⟨hne, hw⟩, hp, hstop⟩
    obtain ⟨x, w, hs⟩ := List.exists_cons_of_ne_nil hne
    have hx : c.current = some x := by
      rw [hs] at hp
      exact hp.current_of_cons
    have hdigit : x.isDigit = true := hw x (by simp [hs])
    rw [hx]
    simp [hdigit, Cursor.copy_eq_iff.mpr ⟨hp, hw, hstop⟩]

theorem whole_eq_ok_iff :
    whole c = .ok s d ↔ Whole s.toList ∧ Passes c s.toList d ∧ d.Stops Char.isDigit := by
  unfold whole Whole
  by_cases hzero : c.current = some '0'
  · simp only [hzero, ↓reduceIte]
    constructor
    · intro h
      split at h
      · simp at h
      · next hnot =>
        obtain ⟨rfl, rfl⟩ := EStateM.Result.ok.inj h
        exact ⟨.inl rfl, .one hzero, Cursor.stops_iff.mpr (by simpa using hnot)⟩
    · rintro ⟨hw | ⟨⟨hne, -⟩, hhead⟩, hp, hstop⟩
      · rw [hw] at hp
        cases hp with
        | cons _ hp =>
          cases hp
          have hs : s = "0" := String.toList_inj.mp hw
          rw [hs, if_neg (by simp [Cursor.stops_iff.mp hstop])]
      · rw [hp.current_eq] at hzero
        simp_all
  · rw [if_neg hzero, digits_eq_ok_iff]
    refine and_congr_left fun ⟨hp, _⟩ => ?_
    constructor
    · intro hw
      refine .inr ⟨hw, fun hhead => hzero ?_⟩
      rw [hp.current_eq, hhead]
      rfl
    · rintro (hw | ⟨hw, -⟩)
      · rw [hw] at hp
        exact absurd hp.current_of_cons hzero
      · exact hw

-- ---------------------------------------------------------------------------
-- Optional parts
-- ---------------------------------------------------------------------------

/-- What would make an optional part longer: its mark, or digits once it has begun. -/
def lengthens (mark : Char → Bool) (w : List Char) : Char → Bool :=
  if w.isEmpty then mark else Char.isDigit

/-- A part that begins with a mark is absent or goes on behind it. -/
theorem optional_eq_ok_iff {p : Char → Bool} {rest : String → Scan String} :
    (do let m ← mark p; if m.isEmpty then return "" else rest m : Scan String) c = .ok s d ↔
      s = "" ∧ d = c ∧ c.Stops p ∨
        ∃ x, p x = true ∧ c.current = some x ∧ c.move.isSeated = true ∧
          rest x.toString c.move = .ok s d := by
  rw [Scan.bind_eq_ok_iff]
  constructor
  · rintro ⟨m, e, hm, h⟩
    rcases mark_eq_ok_iff.mp hm with ⟨rfl, rfl, hstop⟩ | ⟨x, hp, rfl, hx, hseat⟩
    · obtain ⟨rfl, rfl⟩ := Scan.pure_eq_ok_iff.mp h
      exact .inl ⟨rfl, rfl, hstop⟩
    · cases hx with
      | cons hx he =>
        cases he
        exact .inr ⟨x, hp, hx, hseat, by simpa using h⟩
  · rintro (⟨rfl, rfl, hstop⟩ | ⟨x, hp, hx, hseat, h⟩)
    · exact ⟨"", d, mark_eq_ok_iff.mpr (.inl ⟨rfl, rfl, hstop⟩), rfl⟩
    · exact ⟨x.toString, c.move, mark_eq_ok_iff.mpr (.inr ⟨x, hp, rfl, .one hx, hseat⟩),
        by simpa using h⟩

theorem Digits.stops {w : List Char} {p : Char → Bool} (hw : Digits w) (h : Passes c w d)
    (hp : ∀ x, x.isDigit = true → p x = false) : c.Stops p := by
  intro x hx
  obtain ⟨y, w', rfl⟩ := List.exists_cons_of_ne_nil hw.1
  rw [h.current_of_cons, Option.some.injEq] at hx
  exact hp x (hx ▸ hw.2 y (by simp))

theorem fraction_eq_ok_iff :
    fraction c = .ok s d ↔
      (∃ ds, Fraction ds s.toList) ∧ Passes c s.toList d ∧
        d.Stops (lengthens (· == '.') s.toList) := by
  unfold fraction
  rw [optional_eq_ok_iff]
  constructor
  · rintro (⟨rfl, rfl, hstop⟩ | ⟨x, hp, hx, -, h⟩)
    · exact ⟨⟨[], .absent⟩, .nil _, hstop⟩
    · obtain ⟨ds, e, hds, h⟩ := Scan.bind_eq_ok_iff.mp h
      obtain ⟨rfl, rfl⟩ := Scan.pure_eq_ok_iff.mp h
      obtain ⟨hdig, hpass, hstop⟩ := digits_eq_ok_iff.mp hds
      obtain rfl : x = '.' := by simpa using hp
      have hs : ('.'.toString ++ ds).toList = '.' :: ds.toList := by simp
      rw [hs]
      exact ⟨⟨_, .point hdig⟩, .cons hx hpass, hstop⟩
  · rintro ⟨⟨ds, hf⟩, hpass, hstop⟩
    generalize hs : s.toList = w at hf hpass hstop
    cases hf with
    | absent =>
      cases hpass
      exact .inl ⟨String.toList_inj.mp hs, rfl, hstop⟩
    | point hdig =>
      cases hpass with
      | cons hx hpass =>
        refine .inr ⟨'.', rfl, hx, hpass.isSeated hdig.1, Scan.bind_eq_ok_iff.mpr ?_⟩
        refine ⟨String.ofList ds, d, digits_eq_ok_iff.mpr ?_, Scan.pure_eq_ok_iff.mpr ⟨?_, rfl⟩⟩
        · simpa using ⟨hdig, hpass, hstop⟩
        · rw [← String.toList_inj]
          simp [hs]

def isPowerSign (x : Char) : Bool :=
  x == '+' || x == '-'

theorem sign_iff {w : List Char} : (∃ negative, Sign negative w) ↔ Marked (· == '-') w := by
  constructor
  · rintro ⟨_, hs⟩
    cases hs with
    | absent => exact .inl rfl
    | minus => exact .inr ⟨'-', rfl, rfl⟩
  · rintro (rfl | ⟨x, hp, rfl⟩)
    · exact ⟨_, .absent⟩
    · obtain rfl := eq_of_beq hp
      exact ⟨_, .minus⟩

theorem powerSign_iff {w : List Char} :
    (∃ negative, PowerSign negative w) ↔ Marked isPowerSign w := by
  constructor
  · rintro ⟨_, hs⟩
    cases hs with
    | absent => exact .inl rfl
    | plus => exact .inr ⟨'+', rfl, rfl⟩
    | minus => exact .inr ⟨'-', rfl, rfl⟩
  · rintro (rfl | ⟨x, hp, rfl⟩)
    · exact ⟨_, .absent⟩
    · rcases Bool.or_eq_true .. ▸ hp with hx | hx
      · obtain rfl := eq_of_beq hx
        exact ⟨_, .plus⟩
      · obtain rfl := eq_of_beq hx
        exact ⟨_, .minus⟩

theorem isPowerSign_of_isDigit {x : Char} (hx : x.isDigit = true) : isPowerSign x = false := by
  refine Bool.or_eq_false_iff.mpr ⟨beq_false_of_ne ?_, beq_false_of_ne ?_⟩ <;>
    (rintro rfl; exact absurd hx (by decide))

def isPowerMark (x : Char) : Bool :=
  x == 'e' || x == 'E'

theorem isPowerMark_iff {x : Char} : isPowerMark x = true ↔ x ∈ ['e', 'E'] := by
  simp [isPowerMark]

theorem exponent_eq_ok_iff :
    exponent c = .ok s d ↔
      (∃ n, Power n s.toList) ∧ Passes c s.toList d ∧
        d.Stops (lengthens isPowerMark s.toList) := by
  unfold exponent
  rw [optional_eq_ok_iff]
  constructor
  · rintro (⟨rfl, rfl, hstop⟩ | ⟨x, hp, hx, -, h⟩)
    · exact ⟨⟨0, .absent⟩, .nil _, hstop⟩
    · obtain ⟨sign, e, hsign, h⟩ := Scan.bind_eq_ok_iff.mp h
      obtain ⟨ds, f, hds, h⟩ := Scan.bind_eq_ok_iff.mp h
      obtain ⟨rfl, rfl⟩ := Scan.pure_eq_ok_iff.mp h
      obtain ⟨hsign, hpass⟩ := Marked.of_mark hsign
      obtain ⟨negative, hsign⟩ := powerSign_iff.mpr hsign
      obtain ⟨hdig, hpass', hstop⟩ := digits_eq_ok_iff.mp hds
      have hs : (x.toString ++ sign ++ ds).toList = x :: sign.toList ++ ds.toList := by simp
      rw [hs]
      exact ⟨⟨_, .marked (isPowerMark_iff.mp hp) hsign hdig⟩, .cons hx (hpass.append hpass'), hstop⟩
  · rintro ⟨⟨n, hp⟩, hpass, hstop⟩
    generalize hs : s.toList = w at hp hpass hstop
    cases hp with
    | absent =>
      cases hpass
      exact .inl ⟨String.toList_inj.mp hs, rfl, hstop⟩
    | @marked x negative sign ds hx hsign hdig =>
      obtain ⟨e, hpass, hpass'⟩ := hpass.split
      cases hpass with
      | cons hcur hpass =>
        have hseat := (hpass.append hpass').isSeated (by simp [hdig.1])
        refine .inr ⟨x, isPowerMark_iff.mpr hx, hcur, hseat, Scan.bind_eq_ok_iff.mpr ?_⟩
        have hmark := (powerSign_iff.mp ⟨_, hsign⟩).mark hpass (hpass'.isSeated hdig.1)
          (hdig.stops hpass' fun x => isPowerSign_of_isDigit)
        refine ⟨_, e, hmark, Scan.bind_eq_ok_iff.mpr ?_⟩
        refine ⟨String.ofList ds, d, digits_eq_ok_iff.mpr ?_, Scan.pure_eq_ok_iff.mpr ⟨?_, rfl⟩⟩
        · simpa using ⟨hdig, hpass', hstop⟩
        · rw [← String.toList_inj]
          simp [hs]

-- ---------------------------------------------------------------------------
-- The whole number
-- ---------------------------------------------------------------------------

/-- A number with fraction `f` and exponent `p` ends here: what comes next does
not belong to it. -/
structure NumberEnds (f p : List Char) (d : Cursor) : Prop where
  digit : d.Stops Char.isDigit
  point : f = [] → p = [] → d.Stops (· == '.')
  power : p = [] → d.Stops isPowerMark

theorem NumberEnds.of_parts {f p : List Char} {e : Cursor} (hf : Passes c f e) (hp : Passes e p d)
    (hc : c.Stops Char.isDigit) (he : e.Stops (lengthens (· == '.') f))
    (hd : d.Stops (lengthens isPowerMark p)) : NumberEnds f p d := by
  cases hp with
  | cons _ _ => exact ⟨hd, by simp, by simp⟩
  | nil =>
    cases hf with
    | cons _ _ => exact ⟨he, by simp, fun _ => hd⟩
    | nil => exact ⟨hc, fun _ _ => he, fun _ => hd⟩

theorem NumberEnds.power_stops {f p : List Char} (h : NumberEnds f p d) :
    d.Stops (lengthens isPowerMark p) := by
  cases p with
  | nil => exact h.power rfl
  | cons _ _ => exact h.digit

theorem not_continues_of_isPowerMark {x : Char} (hx : x ∈ ['e', 'E']) :
    x.isDigit = false ∧ (x == '.') = false := by
  simp only [List.mem_cons, List.not_mem_nil, or_false] at hx
  rcases hx with rfl | rfl
  · exact ⟨rfl, rfl⟩
  · exact ⟨rfl, rfl⟩

theorem NumberEnds.fraction_stops {f p : List Char} {n : Int} (h : NumberEnds f p d)
    (hn : Power n p) (hp : Passes c p d) : c.Stops (lengthens (· == '.') f) := by
  cases hn with
  | absent =>
    cases hp
    cases f with
    | nil => exact h.point rfl rfl
    | cons _ _ => exact h.digit
  | marked he _ _ =>
    refine Cursor.stops_of_current hp.current_of_cons ?_
    cases f with
    | nil => exact (not_continues_of_isPowerMark he).2
    | cons _ _ => exact (not_continues_of_isPowerMark he).1

theorem NumberEnds.whole_stops {f p ds : List Char} {n : Int} {e : Cursor} (h : NumberEnds f p d)
    (hf : Fraction ds f) (hn : Power n p) (hc : Passes c f e) (he : Passes e p d) :
    c.Stops Char.isDigit := by
  cases hf with
  | point _ => exact Cursor.stops_of_current hc.current_of_cons rfl
  | absent =>
    cases hc
    cases hn with
    | absent =>
      cases he
      exact h.digit
    | marked hx _ _ =>
      exact Cursor.stops_of_current he.current_of_cons (not_continues_of_isPowerMark hx).1

theorem Whole.digits {w : List Char} (h : Whole w) : Digits w := by
  rcases h with rfl | ⟨h, -⟩
  · refine ⟨by simp, fun x hx => ?_⟩
    obtain rfl := List.mem_singleton.mp hx
    rfl
  · exact h

/-- The text of a number is read exactly where it is ahead and does not go on. -/
theorem numeral_eq_ok_iff :
    numeral c = .ok s d ↔
      ∃ negative exponent sg w ds f p,
        Sign negative sg ∧ Whole w ∧ Fraction ds f ∧ Power exponent p ∧
          s.toList = sg ++ w ++ f ++ p ∧ Passes c s.toList d ∧ NumberEnds f p d := by
  simp only [numeral, Scan.bind_eq_ok_iff, Scan.pure_eq_ok_iff]
  constructor
  · rintro ⟨sg, c₁, hsg, w, c₂, hw, f, c₃, hf, p, c₄, hp, rfl, rfl⟩
    obtain ⟨hsign, hps⟩ := Marked.of_mark hsg
    obtain ⟨negative, hsign⟩ := sign_iff.mpr hsign
    obtain ⟨hwhole, hpw, hsw⟩ := whole_eq_ok_iff.mp hw
    obtain ⟨⟨ds, hfrac⟩, hpf, hsf⟩ := fraction_eq_ok_iff.mp hf
    obtain ⟨⟨n, hpow⟩, hpp, hsp⟩ := exponent_eq_ok_iff.mp hp
    refine ⟨negative, n, _, _, ds, _, _, hsign, hwhole, hfrac, hpow, ?_, ?_,
      .of_parts hpf hpp hsw hsf hsp⟩
    · simp
    · simpa using ((hps.append hpw).append hpf).append hpp
  · rintro ⟨negative, n, sg, w, ds, f, p, hsign, hwhole, hfrac, hpow, hs, hpass, hends⟩
    rw [hs] at hpass
    obtain ⟨c₃, hpass, hpp⟩ := hpass.split
    obtain ⟨c₂, hpass, hpf⟩ := hpass.split
    obtain ⟨c₁, hps, hpw⟩ := hpass.split
    have hdig := hwhole.digits
    have hseat := hpw.isSeated hdig.1
    have hminus : c₁.Stops (· == '-') := by
      refine hdig.stops hpw fun x hx => beq_false_of_ne ?_
      rintro rfl
      exact absurd hx (by decide)
    refine ⟨String.ofList sg, c₁, (sign_iff.mp ⟨_, hsign⟩).mark hps hseat hminus,
      String.ofList w, c₂, whole_eq_ok_iff.mpr ?_, String.ofList f, c₃, fraction_eq_ok_iff.mpr ?_,
      String.ofList p, d, exponent_eq_ok_iff.mpr ?_, ?_, rfl⟩
    · simpa using ⟨hwhole, hpw, hends.whole_stops hfrac hpow hpf hpp⟩
    · simpa using ⟨⟨ds, hfrac⟩, hpf, hends.fraction_stops hpow hpp⟩
    · simpa using ⟨⟨n, hpow⟩, hpp, hends.power_stops⟩
    · rw [← String.toList_inj]
      simp [hs]

-- ---------------------------------------------------------------------------
-- What the text means
-- ---------------------------------------------------------------------------

theorem Digits.read {w r : List Char} (hw : Digits w) (hr : r.head?.any Char.isDigit = false) :
    Decimal.digits? (w ++ r) = some (w, r) := by
  have hrun : (w ++ r).takeWhile Char.isDigit = w := by
    rw [List.takeWhile_append_of_pos hw.2]
    cases r with
    | nil => simp
    | cons x r => simp_all
  simp [Decimal.digits?, hrun, hw.1]

/-- What comes next belongs to no number. -/
def extendsNumber (x : Char) : Bool :=
  x.isDigit || x == '.' || isPowerMark x

/-- Before a power there is nothing more of the whole part or the fraction. -/
theorem Power.head_append {n : Int} {p r : List Char} (h : Power n p)
    (hr : r.head?.any extendsNumber = false) :
    (p ++ r).head?.any (fun x => x.isDigit || x == '.') = false := by
  cases h with
  | absent =>
    cases r with
    | nil => rfl
    | cons x r => simp_all [extendsNumber]
  | marked he _ _ =>
    obtain ⟨hdigit, hpoint⟩ := not_continues_of_isPowerMark he
    simp [hdigit, hpoint]

theorem Digits.head_ne {x y : Char} {w : List Char} (hw : Digits (x :: w))
    (hy : y.isDigit = false) : x ≠ y := by
  rintro rfl
  simp [hw.2 x (by simp)] at hy

theorem Sign.read {negative : Bool} {sg w r : List Char} (hs : Sign negative sg) (hw : Digits w) :
    Decimal.sign (sg ++ (w ++ r)) = (negative, w ++ r) := by
  obtain ⟨x, w', rfl⟩ := List.exists_cons_of_ne_nil hw.1
  cases hs with
  | minus => rfl
  | absent =>
    have hx : x ≠ '-' := hw.head_ne rfl
    unfold Decimal.sign
    split
    · simp_all
    · rfl

/-- Before a fraction there is nothing more of the whole part. -/
theorem Fraction.head_append {ds f r : List Char} (hf : Fraction ds f)
    (hr : r.head?.any (fun x => x.isDigit || x == '.') = false) :
    (f ++ r).head?.any Char.isDigit = false := by
  cases hf with
  | absent => cases r <;> simp_all
  | point _ => rfl

theorem Fraction.read {ds f r : List Char} (hf : Fraction ds f)
    (hr : r.head?.any (fun x => x.isDigit || x == '.') = false) :
    Decimal.fraction? (f ++ r) = some (ds, r) := by
  cases hf with
  | point hds => exact hds.read (by cases r <;> simp_all)
  | absent =>
    unfold Decimal.fraction?
    split
    · simp_all
    · rfl

theorem Power.read {n : Int} {p r : List Char} (h : Power n p)
    (hr : r.head?.any extendsNumber = false) : Decimal.power? (p ++ r) = some (n, r) := by
  cases h with
  | absent =>
    cases r with
    | nil => rfl
    | cons x r =>
      have hmark : (x == 'e' || x == 'E') = false := by simp_all [extendsNumber, isPowerMark]
      simp [Decimal.power?, hmark]
  | @marked e negative s ds he hs hds =>
    have hrun : Decimal.digits? (ds ++ r) = some (ds, r) := by
      refine hds.read ?_
      cases r <;> simp_all [extendsNumber]
    have hmark : (e == 'e' || e == 'E') = true := isPowerMark_iff.mpr he
    unfold Decimal.power?
    simp only [List.cons_append, List.append_assoc, hmark, ↓reduceIte]
    cases hs with
    | plus => simp [hrun]
    | minus => simp [Decimal.sign, hrun]
    | absent =>
      have hsign : Decimal.sign (ds ++ r) = (false, ds ++ r) := by
        simpa using Sign.absent.read hds
      obtain ⟨x, ds', rfl⟩ := List.exists_cons_of_ne_nil hds.1
      split
      · next hplus => exact absurd (List.cons.inj hplus).1 (hds.head_ne (y := '+') rfl)
      · simp only [List.nil_append, hsign, hrun, Option.map_some, Bool.false_eq_true, ↓reduceIte]

/-- A numeral is read from the head of a text where nothing behind it would extend it. -/
theorem Numeral.read {n : Decimal.Numeral} {w r : List Char} (h : Numeral n w)
    (hr : r.head?.any extendsNumber = false) : Decimal.Numeral.read? (w ++ r) = some (n, r) := by
  cases h with
  | @parts negative exponent s w ds f p hs hw hf hp =>
    have hpower := hp.head_append hr
    have hfraction := hf.head_append hpower
    simp only [List.append_assoc, Decimal.Numeral.read?, hs.read hw.digits,
      hw.digits.read hfraction, hf.read hpower, hp.read hr, Option.bind_eq_bind, Option.bind_some]
    rfl

/-- A numeral's text is read as that numeral. -/
theorem Numeral.ofList? {n : Decimal.Numeral} {w : List Char} (h : Numeral n w) :
    Decimal.Numeral.ofList? w = some n := by
  have hread := h.read (r := []) rfl
  rw [List.append_nil] at hread
  rw [Decimal.Numeral.ofList?, hread]

theorem number_eq (c : Cursor) :
    number c =
      match numeral c with
      | .error e d => .error e d
      | .ok text d =>
        match Decimal.toFloat? text.toList with
        | some x => .ok x d
        | none => .error d.invalidNumber d := by
  show EStateM.bind numeral _ c = _
  unfold EStateM.bind
  cases numeral c with
  | error e d => rfl
  | ok text d => cases h : Decimal.toFloat? text.toList <;> simp only [h] <;> rfl

theorem number_sound {x : Float} (h : number c = .ok x d) :
    ∃ n w, Numeral n w ∧ n.toFloat = x ∧ Passes c w d := by
  rw [number_eq] at h
  split at h
  · simp at h
  · next text e htext =>
    obtain ⟨negative, exponent, sg, w, ds, f, p, hsign, hwhole, hfrac, hpow, hs, hpass, -⟩ :=
      numeral_eq_ok_iff.mp htext
    have hn := Numeral.parts hsign hwhole hfrac hpow
    rw [← hs] at hn
    simp only [Decimal.toFloat?, hn.ofList?, Option.map_some, EStateM.Result.ok.injEq] at h
    obtain ⟨rfl, rfl⟩ := h
    exact ⟨_, _, hn, rfl, hpass⟩

theorem number_complete {n : Decimal.Numeral} {w : List Char} (hn : Numeral n w)
    (h : Passes c w d) (hd : d.Stops extendsNumber) : number c = .ok n.toFloat d := by
  have hdigit : d.Stops Char.isDigit := fun x hx => by have := hd x hx; simp_all [extendsNumber]
  have hpoint : d.Stops (· == '.') := fun x hx => by have := hd x hx; simp_all [extendsNumber]
  have hpower : d.Stops isPowerMark := fun x hx => by have := hd x hx; simp_all [extendsNumber]
  have hconv : Decimal.toFloat? w = some n.toFloat := by rw [Decimal.toFloat?, hn.ofList?]; rfl
  have htext : numeral c = .ok (String.ofList w) d := by
    rw [numeral_eq_ok_iff, String.toList_ofList]
    cases hn with
    | parts hsign hwhole hfrac hpow =>
      exact ⟨_, _, _, _, _, _, _, hsign, hwhole, hfrac, hpow, rfl, h,
        hdigit, fun _ _ => hpoint, fun _ => hpower⟩
  rw [number_eq, htext]
  simp [hconv]

end TextStream.Document
