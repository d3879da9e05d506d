/-
# What the parser can emit

Every argument the parser cuts out of a control line is a non-empty byte string without
blanks and without CRLF (`IsArg`), and the header block of a publish lies within its body.
The rules of the parser carry this from the line to the state of the machine and on to the
events, whatever the stream and the reads it arrives in (`sound_of_produced`).
-/
import NatsServer.Segments

namespace NatsServer

namespace Proto

open Delimited

/-! ## Arguments -/

/-- An argument of a control line: it may have any bytes but blanks, and a CR or an LF but
not the pair. -/
structure IsArg (b : Bytes) : Prop where
  ne_nil : b ≠ []
  noBlank : ∀ x ∈ b, isBlank x = false
  noCrlf : findPair 13 10 b = none
  length_lt : b.length < 2 ^ 64

/-- The stored arguments are what they should be, in this line. -/
def Args.Cuts (line : Bytes) (args : Args) : Prop :=
  ∀ i : Fin maxArgs, i.val < args.len →
    args.slice line i ≠ [] ∧ ∀ x ∈ args.slice line i, isBlank x = false

/-- The argument just pushed. -/
theorem Args.slice_push_last {line : Bytes} {args : Args} {start stop : ℕ} {i : Fin maxArgs}
    (hi : i.val = args.len) :
    (args.push start stop).slice line i =
      (line.drop (args.base + start)).take (stop - start) := by
  have hroom : args.len < maxArgs := hi ▸ i.isLt
  have hidx : i = ⟨args.len, hroom⟩ := Fin.ext hi
  have hsub : args.base + stop - (args.base + start) = stop - start := by omega
  simp only [Args.push, Args.slice, dif_pos hroom, hidx, Function.update_self, hsub]

/-- A push leaves the other arguments alone. -/
theorem Args.slice_push_of_ne {line : Bytes} {args : Args} {start stop : ℕ} {i : Fin maxArgs}
    (hi : i.val ≠ args.len) : (args.push start stop).slice line i = args.slice line i := by
  simp only [Args.push, Args.slice]
  split_ifs with hroom
  · rw [Function.update_of_ne fun hidx => hi (congrArg Fin.val hidx)]
  · rfl

/-- One more range may be cut out. -/
theorem Args.Cuts.push {line : Bytes} {args : Args} (h : args.Cuts line) {start stop : ℕ}
    (hlt : start < stop) (hle : args.base + stop ≤ line.length)
    (hblank : ∀ x ∈ (line.drop (args.base + start)).take (stop - start), isBlank x = false) :
    (args.push start stop).Cuts line := by
  intro i hi
  have hlen : (args.push start stop).len = args.len + 1 := rfl
  by_cases hlast : i.val = args.len
  · rw [Args.slice_push_last hlast]
    refine ⟨?_, hblank⟩
    rw [← List.length_pos_iff, List.length_take, List.length_drop]
    omega
  · rw [Args.slice_push_of_ne hlast]
    exact h i (by omega)

/-- The loop of `Args::of` at byte `i` of what follows `base`: the current argument has no
blank so far. -/
theorem Args.Cuts.ofLoop {line s : Bytes} {args : Args} (h : args.Cuts line) {start : Option ℕ}
    {i : ℕ} (hline : line.drop (args.base + i) = s) (hle : args.base + i ≤ line.length)
    (hcur : ∀ st ∈ start, st < i ∧
      ∀ x ∈ (line.drop (args.base + st)).take (i - st), isBlank x = false) :
    (args.ofLoop start i s).Cuts line := by
  -- on what is left of the line; `start` is where the current argument began
  induction s generalizing args start i with
  | nil =>
      cases start with
      | none => exact h
      | some st => exact h.push (hcur st rfl).1 hle (hcur st rfl).2
  | cons b s ih =>
      have hb : getElem? line (args.base + i) = some b := by
        rw [← List.head?_drop, hline]
        rfl
      have hnext : line.drop (args.base + (i + 1)) = s := by
        rw [← Nat.add_assoc, ← List.tail_drop, hline]
        rfl
      have hle' : args.base + (i + 1) ≤ line.length := by
        have := (List.getElem?_eq_some_iff.mp hb).1
        omega
      unfold Args.ofLoop
      split_ifs with hblank
      · cases start with
        | none => exact ih h hnext hle' fun st hst => by cases hst
        | some st =>
            exact ih (h.push (hcur st rfl).1 hle (hcur st rfl).2) hnext hle'
              fun st hst => by cases hst
      · -- the byte joins the current argument, or starts one
        have hcur' : ∀ st ∈ some (start.getD i), st < i + 1 ∧
            ∀ x ∈ (line.drop (args.base + st)).take (i + 1 - st), isBlank x = false := by
          intro _ hst
          obtain rfl := Option.mem_some_iff.mp hst
          cases start with
          | none =>
              refine ⟨Nat.lt_succ_self i, fun x hx => ?_⟩
              rw [Option.getD_none, hline, Nat.add_sub_cancel_left] at hx
              simp only [List.take_succ_cons, List.take_zero, List.mem_singleton] at hx
              subst hx
              simpa using hblank
          | some st =>
              obtain ⟨hlt, hold⟩ := hcur st rfl
              refine ⟨by simp; omega, fun x hx => ?_⟩
              rw [Option.getD_some, show i + 1 - st = (i - st) + 1 by omega, List.take_add_one,
                List.getElem?_drop, show args.base + st + (i - st) = args.base + i by omega,
                hb] at hx
              rcases List.mem_append.mp hx with hx | hx
              · exact hold x hx
              · rw [Option.toList_some, List.mem_singleton] at hx
                subst hx
                simpa using hblank
        exact ih h hnext hle' hcur'

/-- **The arguments of a line.** -/
theorem Args.cuts_of {line s : Bytes} {base : ℕ} (hline : line.drop base = s)
    (hle : base ≤ line.length) : (Args.of s base).Cuts line :=
  Args.Cuts.ofLoop (fun _ hi => absurd hi (Nat.not_lt_zero _)) hline hle fun _ hst => by cases hst

/-- What the machine knows of a line it parses. -/
structure IsLine (line : Bytes) : Prop where
  noCrlf : findPair 13 10 line = none
  length_lt : line.length < 2 ^ 64

/-- What is cut out of a line is an argument. -/
theorem Args.Cuts.isArg {line : Bytes} {args : Args} (h : args.Cuts line) (hline : IsLine line)
    (i : Fin maxArgs) (hi : i.val < args.len) : IsArg (args.slice line i) where
  ne_nil := (h i hi).1
  noBlank := (h i hi).2
  noCrlf := findPair_eq_none_of_infix
    ((List.take_prefix _ _).isInfix.trans (List.drop_suffix _ _).isInfix) hline.noCrlf
  length_lt := by
    refine lt_of_le_of_lt ?_ hline.length_lt
    rw [Args.slice, List.length_take, List.length_drop]
    omega

/-! ## Sizes -/

/-- The result is bounded by the number of digits. -/
theorem parseSizeLoop_lt {n : ℤ} (hn : 0 ≤ n) (d : Bytes) :
    parseSizeLoop n d < (n + 1) * 10 ^ d.length := by
  induction d generalizing n with
  | nil => simp [parseSizeLoop]
  | cons b d ih =>
      rw [parseSizeLoop]
      split_ifs with hdigit
      · have hb : ((b - 48).toNat : ℤ) ≤ 9 := by
          have h : b.toNat ≤ 57 ∧ 48 ≤ b.toNat := by
            simp only [isDigit, Bool.and_eq_true, decide_eq_true_eq,
              UInt8.le_iff_toNat_le] at hdigit
            exact ⟨hdigit.2, hdigit.1⟩
          have hsub : (b - 48).toNat = b.toNat - 48 :=
            UInt8.toNat_sub_of_le _ _ (UInt8.le_iff_toNat_le.mpr h.2)
          omega
        calc parseSizeLoop (n * 10 + ((b - 48).toNat : ℤ)) d
            < (n * 10 + ((b - 48).toNat : ℤ) + 1) * 10 ^ d.length := ih (by omega)
          _ ≤ ((n + 1) * 10) * 10 ^ d.length := by
              gcongr
              omega
          _ = (n + 1) * 10 ^ (b :: d).length := by
              rw [List.length_cons, pow_succ]
              ring
      · have : (0 : ℤ) ≤ (n + 1) * 10 ^ (b :: d).length := by positivity
        omega

/-- A size has at most nine digits. -/
theorem parseSize_lt (d : Bytes) : parseSize d < 10 ^ 9 := by
  unfold parseSize
  split_ifs with h
  · decide
  · have hlen : d.length ≤ 9 := by
      simp only [Bool.or_eq_true, decide_eq_true_eq, not_or] at h
      omega
    have hloop := parseSizeLoop_lt (n := 0) le_rfl d
    have hpow : (10 : ℤ) ^ d.length ≤ 10 ^ 9 := pow_le_pow_right₀ (by norm_num) hlen
    omega

/-! ## Events -/

/-- The arguments an event carries. -/
def Event.args : Event → List Bytes
  | .subscribe subject queue sid => subject :: sid :: queue.toList
  | .unsubscribe sid _ => [sid]
  | .publish subject reply _ _ _ _ => subject :: reply.toList
  | _ => []

/-- What is always true of an event: its arguments are arguments, and the header block of a
publish lies within its body. -/
structure Event.Sound (ev : Event) : Prop where
  args : ∀ b ∈ ev.args, IsArg b
  body : ∀ subject reply hdr total hpub body, ev = .publish subject reply hdr total hpub body →
    hdr ≤ body.length ∧ total = body.length ∧ body.length < 10 ^ 9

/-- An event other than a publish is sound if its arguments are. -/
theorem Event.Sound.of_args {ev : Event} (hargs : ∀ b ∈ ev.args, IsArg b)
    (hpub : ∀ subject reply hdr total hpub body, ev ≠ .publish subject reply hdr total hpub body) :
    ev.Sound :=
  ⟨hargs, fun _ _ _ _ _ _ h => absurd h (hpub _ _ _ _ _ _)⟩

/-- The same of a line that announces a body. -/
structure Announces (subject : Bytes) (reply : Option Bytes) (hdr need : ℕ) : Prop where
  args : ∀ b ∈ subject :: reply.toList, IsArg b
  hdr_le : hdr ≤ need
  need_lt : need < 10 ^ 9

def Action.Sound : Except ProtoError Action → Prop
  | .ok (.event ev) => ev.Sound
  | .ok (.body subject reply hdr need _) => Announces subject reply hdr need
  | .error _ => True

/-- The answer to bad arguments is sound. -/
theorem badArgs_sound (hpub : Bool) : Action.Sound (badArgs hpub) := by
  cases hpub with
  | true => exact Event.Sound.of_args (by simp [Event.args]) (by simp)
  | false => trivial

/-- What the check of the sizes returns is sound. -/
theorem pubSizes_sound {subject : Bytes} {reply : Option Bytes}
    (hargs : ∀ b ∈ subject :: reply.toList, IsArg b) (hdr : ℤ) {total : ℤ}
    (htotal : total < 10 ^ 9) (hpub : Bool) (lim : Limits) :
    Action.Sound (pubSizes subject reply hdr total hpub lim) := by
  unfold pubSizes
  split_ifs with hsizes
  · exact badArgs_sound hpub
  · trivial
  · exact ⟨hargs, by omega, by omega⟩

/-- The slots of subject and reply have been filled. -/
theorem lt_of_pubShape {hpub : Bool} {n : ℕ} {subject size0 size1 : Fin maxArgs}
    {reply : Option (Fin maxArgs)} (h : pubShape hpub n = some (subject, reply, size0, size1)) :
    subject.val < n ∧ ∀ r ∈ reply, r.val < n := by
  unfold pubShape at h
  split at h <;> cases h <;> simp

section Line

variable {line : Bytes} (hline : IsLine line)

include hline

/-- What `parse_pub` returns is sound. -/
theorem pubLine_sound {n : ℕ} (hn : n ≤ line.length) (hasArgs hpub : Bool) (lim : Limits) :
    Action.Sound (pubLine line (line.drop n) hasArgs hpub lim) := by
  have hbase : line.length - (line.drop n).length = n := by
    rw [List.length_drop]
    omega
  cases hasArgs with
  | false => trivial
  | true =>
      simp only [pubLine, hbase, Bool.not_true, Bool.false_eq_true, if_false]
      have hcuts : (Args.of (line.drop n) n).Cuts line := Args.cuts_of rfl hn
      generalize Args.of (line.drop n) n = args at hcuts
      have hcount : args.count ≤ args.len := min_le_left _ _
      cases hshape : pubShape hpub args.count with
      | none => exact badArgs_sound hpub
      | some slots =>
          obtain ⟨subject, reply, size0, size1⟩ := slots
          obtain ⟨hsubject, hreply⟩ := lt_of_pubShape hshape
          refine pubSizes_sound (fun b hb => ?_) _ (parseSize_lt _) hpub lim
          rcases List.mem_cons.mp hb with rfl | hb
          · exact hcuts.isArg hline _ (by omega)
          · obtain ⟨r, hr, rfl⟩ := Option.mem_map.mp (Option.mem_toList.mp hb)
            exact hcuts.isArg hline _ ((hreply r hr).trans_le hcount)

/-- What `parse_sub` returns is sound. -/
theorem subLine_sound {n : ℕ} (hn : n ≤ line.length) :
    Action.Sound (subLine line (line.drop n) n) := by
  have hcuts : (Args.of (line.drop n) n).Cuts line := Args.cuts_of rfl hn
  unfold subLine
  generalize Args.of (line.drop n) n = args at hcuts
  have hcount : args.count ≤ args.len := min_le_left _ _
  simp only
  split
  · rename_i h
    refine Event.Sound.of_args (fun b hb => ?_) (by simp)
    simp only [Event.args, Option.toList_none, List.mem_cons, List.not_mem_nil, or_false] at hb
    rcases hb with rfl | rfl
    · exact hcuts.isArg hline 0 (show 0 < args.len by omega)
    · exact hcuts.isArg hline 1 (show 1 < args.len by omega)
  · rename_i h
    refine Event.Sound.of_args (fun b hb => ?_) (by simp)
    simp only [Event.args, Option.toList_some, List.mem_cons, List.not_mem_nil, or_false] at hb
    rcases hb with rfl | rfl | rfl
    · exact hcuts.isArg hline 0 (show 0 < args.len by omega)
    · exact hcuts.isArg hline 2 (show 2 < args.len by omega)
    · exact hcuts.isArg hline 1 (show 1 < args.len by omega)
  · trivial

/-- What `parse_unsub` returns is sound. -/
theorem unsubLine_sound {n : ℕ} (hn : n ≤ line.length) :
    Action.Sound (unsubLine line (line.drop n) n) := by
  have hcuts : (Args.of (line.drop n) n).Cuts line := Args.cuts_of rfl hn
  unfold unsubLine
  generalize Args.of (line.drop n) n = args at hcuts
  have hcount : args.count ≤ args.len := min_le_left _ _
  simp only
  have hfirst : 0 < args.count → IsArg (args.slice line 0) := fun h =>
    hcuts.isArg hline 0 (show 0 < args.len by omega)
  split
  · refine Event.Sound.of_args (fun b hb => ?_) (by simp)
    rw [List.mem_singleton.mp hb]
    exact hfirst (by omega)
  · refine Event.Sound.of_args (fun b hb => ?_) (by simp)
    rw [List.mem_singleton.mp hb]
    exact hfirst (by omega)
  · trivial

/-- **Every control line** asks for something sound. -/
theorem parseLine_sound (lim : Limits) : Action.Sound (parseLine line lim) := by
  have hn : line.findIdx isBlank ≤ line.length := List.findIdx_le_length
  have hverb : ∀ (n : ℕ) (ev : Bytes → Event), (∀ b, (ev b).Sound) →
      Action.Sound (prefixLine line n ev) := by
    intro n ev hev
    unfold prefixLine
    split
    · exact hev _
    · trivial
  refine parseLine_cases line lim trivial ?_ (hverb _ _ fun _ => ?_) (hverb _ _ fun _ => ?_)
    (fun _ => pubLine_sound hline hn _ _ lim) (subLine_sound hline hn) (unsubLine_sound hline hn)
  · intro ev hev
    fin_cases hev <;> exact Event.Sound.of_args (by simp [Event.args]) (by simp)
  · exact Event.Sound.of_args (by simp [Event.args]) (by simp)
  · exact Event.Sound.of_args (by simp [Event.args]) (by simp)

end Line

/-! ## The machine -/

/-- The byte count of the pieces is right. -/
def Parts.Counts (p : Parts) : Prop :=
  p.got = (p.first.getD []).length + p.rest.flatten.length

/-- The count stays right when a part comes in. -/
theorem Parts.Counts.push {p : Parts} (h : p.Counts) (b : Bytes) : (p.push b).Counts := by
  unfold Parts.Counts Parts.push at *
  cases hfirst : p.first with
  | none => simp_all; omega
  | some f => simp_all; omega

/-- The body that is taken out is as long as the count says. -/
theorem Parts.Counts.length_takeBody {p : Parts} (h : p.Counts) : p.takeBody.length = p.got := by
  unfold Parts.Counts at h
  unfold Parts.takeBody
  rw [h]
  split <;> simp_all

/-- A part adds its length to the count. -/
theorem Parts.got_push (p : Parts) (b : Bytes) : (p.push b).got = p.got + b.length := by
  unfold Parts.push
  split <;> rfl

/-- What a turn takes is what is missing, as far as it is there. -/
theorem got_takeInto (need : ℕ) (p : Parts) (src : Bytes) :
    (takeInto need p src).got = p.got + min (need - p.got) src.length := by
  unfold takeInto
  simp only
  split_ifs
  · rw [Parts.got_push, List.length_take]
    omega
  · omega

/-- Taking bytes keeps the count right and within what is needed. -/
theorem Parts.Counts.takeInto {p : Parts} (h : p.Counts) {need : ℕ} (hle : p.got ≤ need)
    (src : Bytes) : (takeInto need p src).Counts ∧ (takeInto need p src).got ≤ need := by
  refine ⟨?_, ?_⟩
  · unfold Proto.takeInto
    simp only
    split_ifs
    · exact h.push _
    · exact h
  · rw [got_takeInto]
    omega

/-- What is always true of the state between calls. -/
def State.Sound : State → Prop
  | .line => True
  | .body subject reply hdr need _ parts =>
      Announces subject reply hdr need ∧ parts.Counts ∧ parts.got ≤ need

/-- A turn leaves a sound state and emits sound events. -/
def Turn.Sound : Turn → Prop
  | .next st _ out => st.Sound ∧ ∀ ev ∈ out, ev.Sound
  | .ret st _ out _ => st.Sound ∧ ∀ ev ∈ out, ev.Sound

theorem hpubAttempt_sound (outcome : HpubOutcome) : (Event.hpubAttempt outcome).Sound :=
  Event.Sound.of_args (by simp [Event.args]) (by simp)

/-- A turn at a line is sound. -/
theorem lineTurn_sound (lim : Limits) (src : Bytes) : (lineTurn lim src).Sound := by
  have hquiet : State.Sound .line ∧ ∀ ev ∈ ([] : List Event), ev.Sound :=
    ⟨trivial, fun _ h => by cases h⟩
  unfold lineTurn
  by_cases hlf : src.head? = some 10
  · rw [if_pos hlf]
    exact hquiet
  rw [if_neg hlf]
  split
  · split_ifs <;> exact hquiet
  rename_i at_ hat
  split_ifs with hlong
  · exact hquiet
  -- the limit on control lines is what bounds the arguments
  have hline : IsLine (src.take at_) := by
    refine ⟨findPair_take_eq_none (findCrlf_eq src ▸ hat), ?_⟩
    have := lim.maxControlLine_lt
    rw [List.length_take]
    omega
  have hsound := parseLine_sound hline lim
  unfold completeLine
  split
  · exact hquiet
  · rename_i ev hev
    rw [hev] at hsound
    have hone : ∀ ev' ∈ [ev], ev'.Sound := List.forall_mem_singleton.mpr hsound
    split_ifs <;> exact ⟨trivial, hone⟩
  · rename_i subject reply hdr need hpub hev
    rw [hev] at hsound
    refine ⟨⟨hsound, rfl, Nat.zero_le _⟩, ?_⟩
    split_ifs
    · exact List.forall_mem_singleton.mpr (hpubAttempt_sound _)
    · exact fun _ h => by cases h

/-- A turn at a body is sound. -/
theorem bodyTurn_sound {subject : Bytes} {reply : Option Bytes} {hdr need : ℕ} {parts : Parts}
    (hann : Announces subject reply hdr need) (hcounts : parts.Counts) (hle : parts.got ≤ need)
    (hpub : Bool) (src : Bytes) : (bodyTurn subject reply hdr need hpub parts src).Sound := by
  obtain ⟨hcounts', hle'⟩ := hcounts.takeInto hle src
  unfold bodyTurn
  simp only
  generalize takeInto need parts src = parts' at hcounts' hle'
  have hwait : Turn.Sound (.ret (.body subject reply hdr need hpub parts'.hoist)
      (src.drop (min (need - parts.got) src.length)) [] (.ok ())) :=
    ⟨⟨hann, hcounts', hle'⟩, fun _ h => by cases h⟩
  have hbad : Turn.Sound (.ret (.body subject reply hdr need hpub parts')
      (src.drop (min (need - parts.got) src.length)) (hpubFrameError hpub).1
      (hpubFrameError hpub).2) := by
    refine ⟨⟨hann, hcounts', hle'⟩, ?_⟩
    cases hpub with
    | true => exact List.forall_mem_singleton.mpr (hpubAttempt_sound _)
    | false => exact fun _ h => by cases h
  split_ifs with hshort
  · exact hwait
  split
  · exact hwait
  · -- the body is complete: it has the announced length
    have hlen : parts'.takeBody.length = need := by
      rw [hcounts'.length_takeBody]
      omega
    refine ⟨trivial, List.forall_mem_singleton.mpr ⟨hann.args, ?_⟩⟩
    rintro _ _ _ _ _ _ ⟨⟩
    have := hann.hdr_le
    have := hann.need_lt
    exact ⟨by omega, rfl, by omega⟩
  · exact hbad
  · exact hwait
  · exact hbad

/-- Every turn from a sound state is sound. -/
theorem turn_sound {st : State} (h : st.Sound) (lim : Limits) (src : Bytes) :
    (turn lim st src).Sound := by
  cases st with
  | line => exact lineTurn_sound lim src
  | body subject reply hdr need hpub parts => exact bodyTurn_sound h.1 h.2.1 h.2.2 hpub src

/-- A turn leaves a state with `P` and emits events with `Q`. -/
def Turn.Holds (P : State → Prop) (Q : Event → Prop) : Turn → Prop
  | .next st _ out => P st ∧ ∀ ev ∈ out, Q ev
  | .ret st _ out _ => P st ∧ ∀ ev ∈ out, Q ev

/-- A sound turn reaches a sound state and pushes sound events. -/
theorem Turn.Sound.holds {t : Turn} (h : t.Sound) : t.Holds State.Sound Event.Sound := by
  cases t <;> exact h

section Rule

variable {P : State → Prop} {Q : Event → Prop} {lim : Limits}
  (hturn : ∀ st src, P st → (turn lim st src).Holds P Q)

include hturn

/-- **What every turn keeps, a call keeps.** -/
theorem feedInto_holds {st : State} (h : P st) (src : Bytes) {out : List Event}
    (hout : ∀ ev ∈ out, Q ev) :
    P (feedInto lim st src out).state ∧ ∀ ev ∈ (feedInto lim st src out).out, Q ev := by
  induction hn : src.length using Nat.strong_induction_on generalizing st src out with
  | _ n ih =>
      subst hn
      have hholds := hturn st src h
      have happend : ∀ evs : List Event, (∀ ev ∈ evs, Q ev) → ∀ ev ∈ out ++ evs, Q ev :=
        fun evs hevs ev hev => (List.mem_append.mp hev).elim (hout ev) (hevs ev)
      cases heq : turn lim st src with
      | ret st' src' evs res =>
          rw [heq] at hholds
          rw [feedInto_of_ret heq]
          exact ⟨hholds.1, happend evs hholds.2⟩
      | next st' src' evs =>
          rw [heq] at hholds
          rw [feedInto_of_next heq]
          exact ih _ (length_lt_of_turn_next heq) hholds.1 src' (happend evs hholds.2) rfl

/-- What every turn keeps is kept over all segments. -/
theorem feedSegments_holds {st : State} (h : P st) (src : Bytes) (segs : List Bytes) :
    ∀ ev ∈ (feedSegments lim st src segs).1, Q ev := by
  induction segs generalizing st src with
  | nil => exact fun _ h => by cases h
  | cons seg segs ih =>
      obtain ⟨hstate, hout⟩ := feedInto_holds hturn h (src ++ seg) (List.forall_mem_nil _)
      unfold feedSegments
      simp only
      split
      · exact hout
      · intro ev hev
        rcases List.mem_append.mp hev with hev | hev
        · exact hout ev hev
        · exact ih hstate _ ev hev

end Rule

/-- A call keeps the parser sound, and all events it pushes are. -/
theorem feedInto_sound {st : State} (h : st.Sound) (lim : Limits) (src : Bytes)
    {out : List Event} (hout : ∀ ev ∈ out, ev.Sound) :
    (feedInto lim st src out).state.Sound ∧
      ∀ ev ∈ (feedInto lim st src out).out, ev.Sound :=
  feedInto_holds (fun _ src h => (turn_sound h lim src).holds) h src hout

/-- An event that some stream makes the parser emit. -/
def Produced (ev : Event) : Prop := ∃ lim segs, ev ∈ (feedSegments lim .line [] segs).1

/-- **What the parser emits is sound**, whatever the stream and the reads it arrives in. -/
theorem sound_of_produced {ev : Event} (h : Produced ev) : ev.Sound := by
  obtain ⟨lim, segs, hev⟩ := h
  have hstart : State.Sound .line := trivial
  exact feedSegments_holds (fun _ src h => (turn_sound h lim src).holds) hstart [] segs ev hev

/-- An argument of an event that the parser can emit. -/
def ParserArg (b : Bytes) : Prop := ∃ ev, Produced ev ∧ b ∈ ev.args

/-- An argument with a spelling of its own is an argument. -/
theorem ParserArg.isArg {b : Bytes} (h : ParserArg b) : IsArg b := by
  obtain ⟨ev, hev, hb⟩ := h
  exact (sound_of_produced hev).args b hb

/-! ## Errors -/

/-- The errors of the parser. -/
def parserErrors : List ProtoError :=
  [.fatal unknownOp, .fatal maxPayloadText, .fatal maxControlLineText, .silent]

/-- An error of a line is one of the parser's errors. -/
theorem mem_parserErrors_of_lineOutcome {e : ProtoError} (h : LineOutcome (.error e)) :
    e ∈ parserErrors := by
  rcases h with rfl | rfl | rfl <;> simp [parserErrors]

/-- A turn at a control line raises one of them. -/
theorem mem_parserErrors_of_lineTurn {lim : Limits} {st' : State} {src src' : Bytes}
    {evs : List Event} {e : ProtoError} (h : lineTurn lim src = .ret st' src' evs (.error e)) :
    e ∈ parserErrors := by
  have hunknown : ProtoError.fatal unknownOp ∈ parserErrors := by simp [parserErrors]
  have hlong : ProtoError.fatal maxControlLineText ∈ parserErrors := by simp [parserErrors]
  unfold lineTurn at h
  by_cases hlf : src.head? = some 10
  · rw [if_pos hlf] at h
    cases h
    exact hunknown
  rw [if_neg hlf] at h
  split at h
  · split_ifs at h <;> cases h
    exact hlong
  · rename_i at_ _
    split_ifs at h
    · cases h
      exact hlong
    · have hline := parseLine_outcome (src.take at_) lim
      unfold completeLine at h
      split at h
      · rename_i e' hparse
        rw [hparse] at hline
        cases (Turn.ret.inj h).2.2.2
        exact mem_parserErrors_of_lineOutcome hline
      · split_ifs at h
        cases (Turn.ret.inj h).2.2.2
      · cases h

/-- A turn in a body raises one of them: the frame is not closed by CRLF. -/
theorem mem_parserErrors_of_bodyTurn {subject : Bytes} {reply : Option Bytes} {hdr need : ℕ}
    {hpub : Bool} {parts : Parts} {st' : State} {src src' : Bytes} {evs : List Event}
    {e : ProtoError}
    (h : bodyTurn subject reply hdr need hpub parts src = .ret st' src' evs (.error e)) :
    e ∈ parserErrors := by
  have hframe : ∀ e, (hpubFrameError hpub).2 = .error e → e ∈ parserErrors := by
    intro e he
    cases hpub with
    | true => cases he
    | false =>
        cases he
        simp [parserErrors]
  simp only [bodyTurn] at h
  split_ifs at h
  · cases h
  · split at h
    · cases h
    · cases h
    · exact hframe e (Turn.ret.inj h).2.2.2
    · cases h
    · exact hframe e (Turn.ret.inj h).2.2.2

/-- The errors of `feed_into` are the parser's errors. -/
theorem mem_parserErrors_of_feedInto {lim : Limits} {st : State} {src : Bytes} {out : List Event}
    {e : ProtoError} (h : (feedInto lim st src out).res = .error e) : e ∈ parserErrors := by
  induction hn : src.length using Nat.strong_induction_on generalizing st src out with
  | _ n ih =>
      subst hn
      cases hturn : turn lim st src with
      | ret st' src' evs res =>
          rw [feedInto_of_ret hturn] at h
          subst h
          cases st with
          | line => exact mem_parserErrors_of_lineTurn hturn
          | body subject reply hdr need hpub parts => exact mem_parserErrors_of_bodyTurn hturn
      | next st' src' evs =>
          rw [feedInto_of_next hturn] at h
          exact ih _ (length_lt_of_turn_next hturn) h rfl

/-- **What the parser raises**, whatever the stream and the reads it arrives in. -/
theorem mem_parserErrors_of_feedSegments {lim : Limits} {st : State} {src : Bytes}
    {segs : List Bytes} {e : ProtoError} (h : (feedSegments lim st src segs).2 = some e) :
    e ∈ parserErrors := by
  induction segs generalizing st src with
  | nil => cases h
  | cons seg segs ih =>
      unfold feedSegments at h
      simp only at h
      split at h
      · rename_i e' hres
        cases h
        exact mem_parserErrors_of_feedInto hres
      · exact ih h

/-- A text that some stream makes the parser refuse the connection with. -/
def Refused (text : String) : Prop :=
  ∃ lim segs e, (feedSegments lim .line [] segs).2 = some e ∧ e.errLine = some text

end Proto

end NatsServer
