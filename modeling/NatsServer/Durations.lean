/-
# Durations

The comment on `parse_duration_str` says that it is Go's `time.ParseDuration`: a sequence of
decimal numbers with units, added up.  Here the meaning of such a text is its exact sum as a
rational number of nanoseconds (`total`), and the scanner is compared with it.

The loop reads exactly the groups a text is spelled with (`durationLoop_spells`,
`spells_of_durationLoop`), and a text is spelled in one way only (`Spells.unique`).  Each number is
cut to an integer before it is multiplied by its unit, so what gets lost is the sum of the
fractions, each in its unit (`lost`); and the sum is taken modulo a power of two.
-/
import NatsServer.ConfigFile

namespace NatsServer.Durations

open Str ConfigFile

/-! ## What a text means -/

/-- The units of time.  A number without a unit counts seconds. -/
inductive TimeUnit where
  | ns | us | mus | ms | s | m | h | bare
  deriving DecidableEq, Repr

namespace TimeUnit

def text : TimeUnit → Text
  | .ns => ['n', 's']
  | .us => ['u', 's']
  | .mus => ['µ', 's']
  | .ms => ['m', 's']
  | .s => ['s']
  | .m => ['m']
  | .h => ['h']
  | .bare => []

/-- The unit in nanoseconds. -/
def nanos : TimeUnit → ℕ
  | .ns => 1
  | .us | .mus => 10 ^ 3
  | .ms => 10 ^ 6
  | .s | .bare => 10 ^ 9
  | .m => 60 * 10 ^ 9
  | .h => 3600 * 10 ^ 9

theorem nanos_pos (u : TimeUnit) : 1 ≤ u.nanos := by
  cases u <;> decide

/-- A unit is known by its text. -/
theorem text_injective {u u' : TimeUnit} (h : u.text = u'.text) : u = u' := by
  cases u <;> cases u' <;> first | rfl | cases h

/-- The text of a unit has no digit and no point. -/
theorem not_isDecimalChar (u : TimeUnit) : ∀ c ∈ u.text, (!isDecimalChar c) = true :=
  List.all_eq_true.mp (by cases u <;> rfl)

theorem text_ne_nil {u : TimeUnit} (h : u ≠ .bare) : u.text ≠ [] := by
  cases u <;> first | exact absurd rfl h | exact List.cons_ne_nil _ _

/-- The table has every unit. -/
theorem unitScale_text (u : TimeUnit) : unitScale u.text = some u.nanos := by
  cases u <;> rfl

end TimeUnit

/-- The table has nothing else. -/
theorem exists_unit {t : Text} {n : ℕ} (h : unitScale t = some n) :
    ∃ u : TimeUnit, u.text = t ∧ u.nanos = n := by
  have htext : ∀ {str : String}, String.ofList t = str → str.toList = t := by
    rintro _ rfl
    exact String.toList_ofList
  unfold unitScale at h
  split at h
  · next heq => exact ⟨.ns, htext heq, Option.some.inj h⟩
  · next heq => exact ⟨.us, htext heq, Option.some.inj h⟩
  · next heq => exact ⟨.mus, htext heq, Option.some.inj h⟩
  · next heq => exact ⟨.ms, htext heq, Option.some.inj h⟩
  · next heq => exact ⟨.s, htext heq, Option.some.inj h⟩
  · next heq => exact ⟨.m, htext heq, Option.some.inj h⟩
  · next heq => exact ⟨.h, htext heq, Option.some.inj h⟩
  · next heq => exact ⟨.bare, htext heq, Option.some.inj h⟩
  · cases h

/-- A decimal number and its unit. -/
structure Group where
  number : Text
  value : ℚ
  unit : TimeUnit
  isDecimal : decimal number = some value

namespace Group

def text (g : Group) : Text := g.number ++ g.unit.text

def nanos (g : Group) : ℚ := g.value * g.unit.nanos

end Group

/-- Groups one after the other.  Only the last one may go without a unit, as its digits would run
into those of the next one. -/
inductive Spells : Text → List Group → Prop
  | nil : Spells [] []
  | cons (g : Group) {s : Text} {gs : List Group} :
      Spells s gs → (g.unit = .bare → gs = []) → Spells (g.text ++ s) (g :: gs)

/-- One or more groups, with or without a plus sign. -/
def Reads (s : Text) (gs : List Group) : Prop :=
  gs ≠ [] ∧ (Spells s gs ∨ ∃ t, s = '+' :: t ∧ Spells t gs)

/-- The exact sum in nanoseconds. -/
def total (gs : List Group) : ℚ := (gs.map Group.nanos).sum

/-- The law: the result is the exact sum, cut to whole nanoseconds, and there is one if and only if
the text consists of groups whose sum fits into 64 bits. -/
def Lawful (s : Text) (r : Option ℕ) : Prop :=
  ∀ d, r = some d ↔ ∃ gs, Reads s gs ∧ total gs ≤ 2 ^ 64 - 1 ∧ d = ⌊total gs⌋₊

/-! ## Reading groups -/

/-- The number and the unit of a group end where the rest begins. -/
structure Group.Before (g : Group) (rest : Text) : Prop where
  head : ∀ c ∈ rest.head?, isDecimalChar c = true
  bare : g.unit = .bare → rest = []

/-- What spells groups begins with a digit or a point. -/
theorem Spells.head {s : Text} {gs : List Group} (h : Spells s gs) :
    ∀ c ∈ s.head?, isDecimalChar c = true := by
  cases h with
  | nil => simp
  | cons g _ _ =>
      obtain ⟨hne, hchars⟩ := isDecimalChar_of_decimal g.isDecimal
      obtain ⟨c, t, hct⟩ := List.exists_cons_of_ne_nil hne
      intro d hd
      simp only [Group.text, hct, List.cons_append, List.head?_cons, Option.mem_some_iff] at hd
      exact hchars d (by rw [hct, hd]; exact List.mem_cons_self)

/-- The empty text spells no group, and nothing else does. -/
theorem Spells.eq_nil_iff {s : Text} {gs : List Group} (h : Spells s gs) : s = [] ↔ gs = [] := by
  cases h with
  | nil => simp
  | cons g _ _ => simp [Group.text, (isDecimalChar_of_decimal g.isDecimal).1]

/-- A group may stand in front of a text that spells groups. -/
theorem Spells.before {s : Text} {gs : List Group} (h : Spells s gs) {g : Group}
    (hg : g.unit = .bare → gs = []) : g.Before s :=
  ⟨h.head, fun hbare => h.eq_nil_iff.mpr (hg hbare)⟩

section Spans

variable {g : Group} {rest : Text} (h : g.Before rest)

include h

/-- The number of a group ends where its unit begins. -/
theorem span_number :
    (g.text ++ rest).takeWhile isDecimalChar = g.number ∧
      (g.text ++ rest).dropWhile isDecimalChar = g.unit.text ++ rest := by
  rw [Group.text, List.append_assoc]
  refine span_append (isDecimalChar_of_decimal g.isDecimal).2 fun c hc => ?_
  cases hunit : g.unit.text with
  | nil =>
      -- no unit, and then nothing follows
      have hbare : g.unit = .bare := by
        by_contra hne
        exact TimeUnit.text_ne_nil hne hunit
      simp [hunit, h.bare hbare] at hc
  | cons d unit =>
      have hd := g.unit.not_isDecimalChar d (by rw [hunit]; exact List.mem_cons_self)
      simp only [hunit, List.cons_append, List.head?_cons, Option.mem_some_iff] at hc
      simpa [hc] using hd

/-- The unit of a group ends where the next number begins. -/
theorem span_unit :
    (g.unit.text ++ rest).takeWhile (!isDecimalChar ·) = g.unit.text ∧
      (g.unit.text ++ rest).dropWhile (!isDecimalChar ·) = rest :=
  span_append g.unit.not_isDecimalChar fun c hc => by simp [h.head c hc]

end Spans

/-- Where the first group ends is determined by the text. -/
theorem Group.eq_of_append {g g' : Group} {rest rest' : Text} (h : g.Before rest)
    (h' : g'.Before rest') (heq : g.text ++ rest = g'.text ++ rest') : g = g' ∧ rest = rest' := by
  obtain ⟨hnumber, hdrop⟩ := span_number h
  obtain ⟨hnumber', hdrop'⟩ := span_number h'
  rw [heq, hnumber'] at hnumber
  rw [heq, hdrop'] at hdrop
  obtain ⟨hunit, hrest⟩ := span_unit h
  obtain ⟨hunit', hrest'⟩ := span_unit h'
  rw [← hdrop, hunit'] at hunit
  rw [← hdrop, hrest'] at hrest
  refine ⟨?_, hrest.symm⟩
  obtain ⟨number, value, unit, hdec⟩ := g
  obtain ⟨number', value', unit', hdec'⟩ := g'
  cases hnumber
  cases TimeUnit.text_injective hunit
  rw [hdec] at hdec'
  cases hdec'
  rfl

/-- **A text is spelled in one way.** -/
theorem Spells.unique {s : Text} {gs gs' : List Group} (h : Spells s gs) (h' : Spells s gs') :
    gs = gs' := by
  induction h generalizing gs' with
  | nil => exact (h'.eq_nil_iff.mp rfl).symm
  | cons g hs hg ih =>
      generalize htext : g.text ++ _ = s at h'
      cases h' with
      | nil => simp [Group.text, (isDecimalChar_of_decimal g.isDecimal).1] at htext
      | cons g' hs' hg' =>
          obtain ⟨rfl, rfl⟩ := Group.eq_of_append (hs.before hg) (hs'.before hg') htext
          rw [ih hs']

/-- A text is read in one way. -/
theorem Reads.unique {s : Text} {gs gs' : List Group} (h : Reads s gs) (h' : Reads s gs') :
    gs = gs' := by
  -- a group does not begin with a sign
  have hsign : ∀ {t : Text} {gs : List Group}, ¬ Spells ('+' :: t) gs :=
    fun h => Bool.false_ne_true (h.head '+' rfl)
  rcases h.2 with hs | ⟨t, rfl, hs⟩
  · rcases h'.2 with hs' | ⟨t', rfl, hs'⟩
    · exact hs.unique hs'
    · exact absurd hs hsign
  · rcases h'.2 with hs' | ⟨t', ht', hs'⟩
    · exact absurd hs' hsign
    · cases ht'
      exact hs.unique hs'

/-! ## The loop -/

/-- What an iteration does to the sum. -/
def addGroup (sum : ℕ) (g : Group) : ℕ :=
  (sum + Binary64.toUnsigned 128 (Binary64.round g.value) * g.unit.nanos) % 2 ^ 128

/-- One turn of the loop reads one group. -/
theorem durationLoop_group {g : Group} {rest : Text} (h : g.Before rest) (fuel sum : ℕ)
    (saw : Bool) :
    durationLoop (fuel + 1) (g.text ++ rest) (sum, saw) =
      durationLoop fuel rest (addGroup sum g, true) := by
  obtain ⟨hnumber, hdrop⟩ := span_number h
  obtain ⟨hunit, hrest⟩ := span_unit h
  have hne := (isDecimalChar_of_decimal g.isDecimal).1
  obtain ⟨c, t, hct⟩ : ∃ c t, g.text ++ rest = c :: t :=
    List.exists_cons_of_ne_nil (by simp [Group.text, hne])
  rw [hct] at hnumber hdrop ⊢
  simp only [durationLoop, hnumber, hdrop, hunit, hrest, if_neg hne, parseF64, g.isDecimal,
    Option.map_some, TimeUnit.unitScale_text, Option.bind_eq_bind, Option.bind_some, addGroup]

/-- The loop adds up the groups of a text. -/
theorem durationLoop_spells {s : Text} {gs : List Group} (h : Spells s gs) {fuel : ℕ}
    (hfuel : s.length ≤ fuel) (sum : ℕ) (saw : Bool) :
    durationLoop fuel s (sum, saw) = some (gs.foldl addGroup sum, saw || !gs.isEmpty) := by
  induction h generalizing fuel sum saw with
  | nil => cases fuel <;> simp [durationLoop]
  | cons g hs hg ih =>
      have hne := List.length_pos_iff.mpr (isDecimalChar_of_decimal g.isDecimal).1
      rw [Group.text, List.length_append, List.length_append] at hfuel
      obtain ⟨fuel, rfl⟩ : ∃ n, fuel = n + 1 := ⟨fuel - 1, by omega⟩
      rw [durationLoop_group (hs.before hg), ih (by omega)]
      simp

/-- Without a unit behind a number, nothing is left. -/
theorem bare_rest {l : Text}
    (h : (l.dropWhile isDecimalChar).takeWhile (!isDecimalChar ·) = []) :
    l.dropWhile isDecimalChar = [] := by
  cases hdrop : l.dropWhile isDecimalChar with
  | nil => rfl
  | cons c rest =>
      have hne : l.dropWhile isDecimalChar ≠ [] := by rw [hdrop]; exact List.cons_ne_nil _ _
      have hhead := List.head_dropWhile_not isDecimalChar hne
      simp only [hdrop, List.head_cons] at hhead
      rw [hdrop, List.takeWhile_cons_of_pos (by simp [hhead])] at h
      cases h

/-- The loop gets to the end of no other text. -/
theorem spells_of_durationLoop {fuel : ℕ} {s : Text} {st st' : ℕ × Bool}
    (h : durationLoop fuel s st = some st') : ∃ gs, Spells s gs := by
  induction fuel generalizing s st with
  | zero =>
      cases s with
      | nil => exact ⟨[], .nil⟩
      | cons c t => simp [durationLoop] at h
  | succ fuel ih =>
      cases s with
      | nil => exact ⟨[], .nil⟩
      | cons c t =>
          obtain ⟨sum, saw⟩ := st
          simp only [durationLoop] at h
          split_ifs at h
          obtain ⟨num, hnum, h⟩ := Option.bind_eq_some_iff.mp h
          obtain ⟨scale, hscale, h⟩ := Option.bind_eq_some_iff.mp h
          obtain ⟨value, hvalue, -⟩ := Option.map_eq_some_iff.mp hnum
          obtain ⟨unit, hunit, -⟩ := exists_unit hscale
          obtain ⟨gs, hgs⟩ := ih h
          refine ⟨⟨_, value, unit, hvalue⟩ :: gs, ?_⟩
          have hspells := Spells.cons ⟨_, value, unit, hvalue⟩ hgs fun hbare => by
            -- the scan for the unit would have taken what follows
            rw [show unit = .bare from hbare] at hunit
            rw [← hgs.eq_nil_iff, bare_rest hunit.symm]
            rfl
          rw [Group.text, hunit, List.append_assoc, List.takeWhile_append_dropWhile,
            List.takeWhile_append_dropWhile] at hspells
          exact hspells

/-! ## The sum -/

/-- The groups without their fractions. -/
def whole (gs : List Group) : ℕ := (gs.map fun g => ⌊g.value⌋₊ * g.unit.nanos).sum

/-- The fractions of the numbers, each in its unit. -/
def lost (gs : List Group) : ℚ := (gs.map fun g => Int.fract g.value * (g.unit.nanos : ℚ)).sum

section Sums

variable (g : Group) (gs : List Group)

theorem total_cons : total (g :: gs) = g.nanos + total gs := by simp [total]

theorem whole_cons : whole (g :: gs) = ⌊g.value⌋₊ * g.unit.nanos + whole gs := by simp [whole]

theorem lost_cons : lost (g :: gs) = Int.fract g.value * g.unit.nanos + lost gs := by simp [lost]

/-- A group is its whole units and a fraction of one. -/
theorem Group.nanos_eq :
    g.nanos = (⌊g.value⌋₊ * g.unit.nanos : ℕ) + Int.fract g.value * g.unit.nanos := by
  have hfloor : ((⌊g.value⌋₊ : ℕ) : ℚ) + Int.fract g.value = g.value := by
    rw [natCast_floor_eq_intCast_floor (decimal_nonneg g.isDecimal)]
    exact Int.floor_add_fract g.value
  rw [Nat.cast_mul, ← add_mul, hfloor, Group.nanos]

/-- The sum is that of the whole units and that of the fractions. -/
theorem total_eq : total gs = whole gs + lost gs := by
  induction gs with
  | nil => simp [total, whole, lost]
  | cons g gs ih =>
      rw [total_cons, whole_cons, lost_cons, ih, g.nanos_eq]
      push_cast
      ring

/-- The fractions add up to something that is not negative. -/
theorem lost_nonneg : 0 ≤ lost gs := by
  induction gs with
  | nil => exact le_rfl
  | cons g gs ih =>
      rw [lost_cons]
      exact add_nonneg (mul_nonneg (Int.fract_nonneg _) (Nat.cast_nonneg _)) ih

/-- Nothing is lost exactly if the fractions are less than a nanosecond. -/
theorem floor_total_eq_whole_iff : ⌊total gs⌋₊ = whole gs ↔ lost gs < 1 := by
  rw [total_eq, add_comm, Nat.floor_add_natCast (lost_nonneg gs), Nat.add_eq_right,
    Nat.floor_eq_zero]

end Sums

/-- The cast of a representable number cuts off its fraction, and saturates. -/
theorem toUnsigned_of_representable {q : ℚ} (h : Binary64.Representable q) :
    Binary64.toUnsigned 128 (Binary64.round q) = min ⌊q⌋₊ (2 ^ 128 - 1) := by
  rw [Binary64.round_of_representable h]
  rfl

/-- As long as the sum stays below 2¹²⁸, the loop computes it without the fractions. -/
theorem foldl_addGroup {gs : List Group} (hrep : ∀ g ∈ gs, Binary64.Representable g.value)
    {sum : ℕ} (hlt : sum + whole gs < 2 ^ 128) : gs.foldl addGroup sum = sum + whole gs := by
  induction gs generalizing sum with
  | nil => simp [whole]
  | cons g gs ih =>
      rw [whole_cons] at hlt ⊢
      have hfloor : ⌊g.value⌋₊ ≤ ⌊g.value⌋₊ * g.unit.nanos :=
        Nat.le_mul_of_pos_right _ g.unit.nanos_pos
      have hadd : addGroup sum g = sum + ⌊g.value⌋₊ * g.unit.nanos := by
        rw [addGroup, toUnsigned_of_representable (hrep g List.mem_cons_self),
          min_eq_left (by omega), Nat.mod_eq_of_lt (by omega)]
      rw [List.foldl_cons, hadd, ih (fun g hg => hrep g (List.mem_cons_of_mem _ hg)) (by omega)]
      omega

/-! ## `parse_duration_str` -/

/-- The part of `parse_duration_str` behind the sign. -/
def scan (t : Text) : Option ℕ :=
  (durationLoop t.length t (0, false)).bind fun (sum, saw) =>
    if saw then some (sum % 2 ^ 64) else none

/-- A negative duration is refused. -/
theorem parseDurationStr_minus (t : Text) : parseDurationStr ('-' :: t) = none := by
  simp only [parseDurationStr]
  generalize (if ('-' == '-' || '-' == '+') = true then t else '-' :: t) = rest
  split_ifs
  · rfl
  · cases durationLoop rest.length rest (0, false) <;> simp

/-- A plus sign is skipped. -/
theorem parseDurationStr_cons {c : Char} (hminus : c ≠ '-') (t : Text) :
    parseDurationStr (c :: t) = scan (if c = '+' then t else c :: t) := by
  simp only [parseDurationStr, beq_eq_false_iff_ne.mpr hminus, Bool.false_or, beq_iff_eq]
  generalize (if c = '+' then t else c :: t) = rest
  rw [scan]
  split_ifs with hnil
  · rw [hnil]
    rfl
  · cases durationLoop rest.length rest (0, false) with
    | none => rfl
    | some st => cases h : st.2 <;> simp [h]

/-- A text that spells groups is scanned to their sum. -/
theorem scan_of_spells {t : Text} {gs : List Group} (h : Spells t gs) (hgs : gs ≠ []) :
    scan t = some (gs.foldl addGroup 0 % 2 ^ 64) := by
  have hsaw : (!gs.isEmpty) = true := by simpa using hgs
  rw [scan, durationLoop_spells h le_rfl, hsaw]
  rfl

/-- What is scanned spells groups. -/
theorem spells_of_scan {t : Text} {d : ℕ} (h : scan t = some d) :
    ∃ gs, gs ≠ [] ∧ Spells t gs := by
  obtain ⟨st, hloop, hsaw⟩ := Option.bind_eq_some_iff.mp h
  obtain ⟨gs, hgs⟩ := spells_of_durationLoop hloop
  refine ⟨gs, ?_, hgs⟩
  rintro rfl
  rw [durationLoop_spells hgs le_rfl] at hloop
  cases hloop
  cases hsaw

/-- A text that can be read is read to the sum of its groups. -/
theorem parseDurationStr_of_reads {s : Text} {gs : List Group} (h : Reads s gs) :
    parseDurationStr s = some (gs.foldl addGroup 0 % 2 ^ 64) := by
  obtain ⟨hgs, hs | ⟨t, rfl, hs⟩⟩ := h
  · obtain ⟨c, t, rfl⟩ := List.exists_cons_of_ne_nil (mt hs.eq_nil_iff.mp hgs)
    have hc := hs.head c rfl
    have hminus : c ≠ '-' := by
      rintro rfl
      cases hc
    have hplus : c ≠ '+' := by
      rintro rfl
      cases hc
    rw [parseDurationStr_cons hminus, if_neg hplus, scan_of_spells hs hgs]
  · rw [parseDurationStr_cons (by decide), if_pos rfl, scan_of_spells hs hgs]

/-- What is accepted can be read. -/
theorem reads_of_parseDurationStr {s : Text} {d : ℕ} (h : parseDurationStr s = some d) :
    ∃ gs, Reads s gs := by
  cases s with
  | nil => cases h
  | cons c t =>
      by_cases hminus : c = '-'
      · rw [hminus, parseDurationStr_minus] at h
        cases h
      · rw [parseDurationStr_cons hminus] at h
        obtain ⟨gs, hgs, hs⟩ := spells_of_scan h
        refine ⟨gs, hgs, ?_⟩
        split_ifs at hs with hplus
        · exact .inr ⟨t, by rw [hplus], hs⟩
        · exact .inl hs

/-- The whole units fit if the sum does. -/
theorem whole_le_of_total_le {gs : List Group} (h : total gs ≤ 2 ^ 64 - 1) :
    whole gs ≤ 2 ^ 64 - 1 := by
  have hle : (whole gs : ℚ) ≤ ((2 ^ 64 - 1 : ℕ) : ℚ) := by
    calc (whole gs : ℚ) ≤ total gs := by rw [total_eq]; linarith [lost_nonneg gs]
      _ ≤ 2 ^ 64 - 1 := h
      _ = ((2 ^ 64 - 1 : ℕ) : ℚ) := by norm_num
  exact_mod_cast hle

/-- The law holds for a text exactly if its sum fits and the fractions make less than a
nanosecond. -/
theorem lawful_iff {s : Text} (hrep : ∀ gs, Reads s gs → ∀ g ∈ gs, Binary64.Representable g.value) :
    Lawful s (parseDurationStr s) ↔
      ∀ gs, Reads s gs → total gs ≤ 2 ^ 64 - 1 ∧ lost gs < 1 := by
  by_cases hreads : ∃ gs, Reads s gs
  · obtain ⟨gs, hgs⟩ := hreads
    have hsum : total gs ≤ 2 ^ 64 - 1 → gs.foldl addGroup 0 % 2 ^ 64 = whole gs := by
      intro hfits
      have hwhole := whole_le_of_total_le hfits
      rw [foldl_addGroup (hrep gs hgs) (by omega), Nat.zero_add, Nat.mod_eq_of_lt (by omega)]
    rw [parseDurationStr_of_reads hgs]
    constructor
    · intro hlaw gs' hgs'
      obtain ⟨gs'', hgs'', hfits, hfloor⟩ := (hlaw _).mp rfl
      rw [← hgs.unique hgs''] at hfits hfloor
      rw [← hgs.unique hgs']
      exact ⟨hfits, (floor_total_eq_whole_iff gs).mp (hfloor.symm.trans (hsum hfits))⟩
    · intro hlaw d
      obtain ⟨hfits, hlost⟩ := hlaw gs hgs
      rw [hsum hfits, ← (floor_total_eq_whole_iff gs).mpr hlost]
      constructor
      · intro hd
        exact ⟨gs, hgs, hfits, (Option.some.inj hd).symm⟩
      · rintro ⟨gs', hgs', -, rfl⟩
        rw [hgs.unique hgs']
  · -- nothing to add up, and nothing is returned
    have hnone : parseDurationStr s = none := by
      by_contra hsome
      obtain ⟨d, hd⟩ := Option.ne_none_iff_exists'.mp hsome
      exact hreads (reads_of_parseDurationStr hd)
    refine ⟨fun _ gs hgs => absurd ⟨gs, hgs⟩ hreads, fun _ d => ?_⟩
    rw [hnone]
    exact ⟨nofun, fun ⟨gs, hgs, _⟩ => absurd ⟨gs, hgs⟩ hreads⟩

/-! ## `parse_duration` -/

/-- `str::parse::<i64>` with a minus sign. -/
theorem parseInt64_minus (t : Text) :
    parseInt64 10 ('-' :: t) = none ↔ ∀ n ∈ unsigned 10 t, 2 ^ 63 < n := by
  simp only [parseInt64, signed]
  cases unsigned 10 t with
  | none => simp
  | some n =>
      simp only [Option.map_some, ite_eq_right_iff, reduceCtorEq, imp_false, Option.mem_some_iff,
        forall_eq']
      omega

/-- A value with a minus sign is accepted only without quotes, in plain seconds and within
`i64`. -/
theorem parseDuration_minus_iff {v t : Text} (h : unquote v = '-' :: t) (field : Text) :
    (∃ e, parseDuration v field = .error e) ↔
      isQuoted v = true ∨ ∀ n ∈ unsigned 10 t, 2 ^ 63 < n := by
  have hstr : durationOf field ('-' :: t) = .error (.invalidDuration field ('-' :: t)) := by
    rw [durationOf, parseDurationStr_minus]
  rw [← parseInt64_minus]
  by_cases hquoted : isQuoted v = true
  · simp [parseDuration, h, hquoted, hstr, Except.map]
  · cases hint : parseInt64 10 ('-' :: t) with
    | none => simp [parseDuration, h, hquoted, hstr, hint, Except.map]
    | some secs => simp [parseDuration, h, hquoted, hint]

/-- **Durations.**  Where the numbers are doubles, `parse_duration_str` computes the exact sum if
and only if the sum fits and the fractions, each in its unit, make less than a nanosecond.  A value
with a minus sign is refused if and only if it is in quotes or is no integer within `i64`. -/
theorem durations_iff {s : Text}
    (hrep : ∀ gs, Reads s gs → ∀ g ∈ gs, Binary64.Representable g.value)
    {v t : Text} (hminus : unquote v = '-' :: t) (field : Text) :
    (Lawful s (parseDurationStr s) ↔
      ∀ gs, Reads s gs → total gs ≤ 2 ^ 64 - 1 ∧ lost gs < 1) ∧
    ((∃ e, parseDuration v field = .error e) ↔
      isQuoted v = true ∨ ∀ n ∈ unsigned 10 t, 2 ^ 63 < n) :=
  ⟨lawful_iff hrep, parseDuration_minus_iff hminus field⟩

def minute : Group := ⟨['1'], 1, .m, by decide +kernel⟩

def halfMinute : Group := ⟨['3', '0'], 30, .s, by decide +kernel⟩

theorem reads_minute : Reads "1m30s".toList [minute, halfMinute] := by
  have htext : "1m30s".toList = minute.text ++ (halfMinute.text ++ []) := by decide +kernel
  rw [htext]
  exact ⟨by simp, .inl (.cons minute (.cons halfMinute .nil nofun) nofun)⟩

/-- A minute and a half is read as it should be, and a negative duration is refused. -/
theorem durations_minute :
    Lawful "1m30s".toList (parseDurationStr "1m30s".toList) ∧
      ∃ e, parseDuration " \"-5s\"".toList "ping_interval".toList = .error e := by
  have hrep : ∀ gs, Reads "1m30s".toList gs → ∀ g ∈ gs, Binary64.Representable g.value := by
    intro gs hgs
    rw [← reads_minute.unique hgs]
    refine List.forall_mem_cons.mpr ⟨?_, List.forall_mem_singleton.mpr ?_⟩
    · exact ⟨1, 0, by decide, by decide, by decide, by norm_num [minute]⟩
    · exact ⟨30, 0, by decide, by decide, by decide, by norm_num [halfMinute]⟩
  have hminus : unquote " \"-5s\"".toList = '-' :: "5s".toList := by decide +kernel
  obtain ⟨hlaw, hneg⟩ := durations_iff hrep hminus "ping_interval".toList
  refine ⟨hlaw.mpr fun gs hgs => ?_, hneg.mpr (.inl (by decide +kernel))⟩
  rw [← reads_minute.unique hgs]
  norm_num [total, lost, Group.nanos, TimeUnit.nanos, minute, halfMinute]

def threeHalves : Group := ⟨"1.5".toList, 3 / 2, .s, by decide +kernel⟩

theorem reads_threeHalves : Reads "1.5s".toList [threeHalves] := by
  have htext : "1.5s".toList = threeHalves.text ++ [] := by decide +kernel
  rw [htext]
  exact ⟨by simp, .inl (.cons threeHalves .nil nofun)⟩

/-- Half a second is lost, a sum beyond 64 bits starts again from zero, and a negative number of
seconds becomes a very long time. -/
theorem fraction_lost :
    Reads "1.5s".toList [threeHalves] ∧ Binary64.Representable threeHalves.value ∧
      total [threeHalves] = 15 * 10 ^ 8 ∧
      parseDurationStr "1.5s".toList = some (10 ^ 9) ∧
      parseDurationStr "18446744073709551616ns".toList = some 0 ∧
      parseDuration " -5".toList "ping_interval".toList =
        .ok ((2 ^ 64 - 5) * 10 ^ 9, ["ping_interval should be converted to a duration"]) := by
  refine ⟨reads_threeHalves, ?_, ?_, by decide +kernel, by decide +kernel, by decide +kernel⟩
  · exact ⟨3, -1, by decide, by decide, by decide, by norm_num [threeHalves]⟩
  · norm_num [total, Group.nanos, TimeUnit.nanos, threeHalves]

end NatsServer.Durations
