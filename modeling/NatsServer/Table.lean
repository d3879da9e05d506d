/-
# The table of verbs

The control lines as the protocol contract lists them: ten verbs, each with its name, the way
it is recognised and the shapes of its arguments (`Verb`, `Verb.row`).  The arguments are the
fields of the line between runs of blanks, however many there are; the parser keeps five of
them and dispatches on the first byte of the line, and computes the same (`parseLine_table`).
-/
import NatsServer.Encode

namespace NatsServer

namespace Proto

open Delimited Frames

/-! ## The table -/

inductive Verb where
  | ping | pong | connect | info | ok | err | sub | unsub | pub | hpub
  deriving DecidableEq

namespace Verb

def name : Verb → Bytes
  | .ping => ascii "PING"
  | .pong => ascii "PONG"
  | .connect => ascii "CONNECT"
  | .info => ascii "INFO"
  | .ok => ascii "+OK"
  | .err => ascii "-ERR"
  | .sub => ascii "SUB"
  | .unsub => ascii "UNSUB"
  | .pub => ascii "PUB"
  | .hpub => ascii "HPUB"

/-- The verb is recognised at the start of the line, whatever follows its letters. -/
def loose : Verb → Bool
  | .ping | .pong | .connect | .info => true
  | _ => false

def all : List Verb := [.ping, .pong, .connect, .info, .ok, .err, .sub, .unsub, .pub, .hpub]

theorem mem_all (v : Verb) : v ∈ all := by
  cases v <;> decide

end Verb

/-- Bytes without regard to ASCII case. -/
def folded (b : Bytes) : Bytes := b.map asciiLower

/-- The first word of a line. -/
def word (line : Bytes) : Bytes := line.takeWhile (!isBlank ·)

/-- What stands behind the first word, from its separator on. -/
def behind (line : Bytes) : Bytes := line.dropWhile (!isBlank ·)

/-- The line is one of this verb. -/
def Verb.heads (v : Verb) (line : Bytes) : Bool :=
  if v.loose then folded (line.take v.name.length) == folded v.name
  else folded (word line) == folded v.name

/-- A declared size: one to nine digits. -/
def declaredSize (d : Bytes) : Option ℕ :=
  if 1 ≤ d.length ∧ d.length ≤ 9 ∧ ∀ b ∈ d, isDigit b = true then some (d.foldl readDigit 0)
  else none

/-- The rows of a publish with these arguments: the sizes must be sizes and the header block
must lie in the body, and the body must be permitted. -/
def publishRow (lim : Limits) (subject : Bytes) (reply : Option Bytes) (hdr total : Option ℕ)
    (hpub : Bool) : Except ProtoError Action :=
  match hdr, total with
  | some hdr, some total =>
      if total < hdr then badArgs hpub
      else if lim.maxPayload < total then .error (.fatal maxPayloadText)
      else .ok (.body subject reply hdr total hpub)
  | _, _ => badArgs hpub

/-- A verb that takes the rest of the line, from its first byte that is not blank. -/
def restRow (rest : Bytes) (ev : Bytes → Event) : Except ProtoError Action :=
  match rest.dropWhile isBlank with
  | [] => .error .silent
  | arg => .ok (.event (ev arg))

/-- A verb that needs a separator behind it; `row` has the arguments. -/
def separatedRow (line : Bytes) (row : List Bytes → Except ProtoError Action) :
    Except ProtoError Action :=
  if behind line = [] then .error (.fatal unknownOp) else row (fields isBlank (behind line))

/-- What a line of this verb asks for. -/
def Verb.row (lim : Limits) (line : Bytes) : Verb → Except ProtoError Action
  | .ping => .ok (.event .ping)
  | .pong => .ok (.event .pong)
  | .connect => restRow (line.drop 7) .connect
  | .info => restRow (line.drop 4) .info
  | .ok => .ok (.event .clientOk)
  | .err => separatedRow line fun _ => .ok (.event .clientErr)
  | .sub => separatedRow line fun
      | [subject, sid] => .ok (.event (.subscribe subject none sid))
      | [subject, queue, sid] => .ok (.event (.subscribe subject (some queue) sid))
      | _ => .error .silent
  | .unsub => separatedRow line fun
      | [sid] => .ok (.event (.unsubscribe sid (-1)))
      | [sid, max] =>
          .ok (.event (.unsubscribe sid ((declaredSize max).elim (-1) fun n => (n : ℤ))))
      | _ => .error .silent
  | .pub => separatedRow line fun
      | [subject, total] => publishRow lim subject none (some 0) (declaredSize total) false
      | [subject, reply, total] =>
          publishRow lim subject (some reply) (some 0) (declaredSize total) false
      | _ => badArgs false
  | .hpub => separatedRow line fun
      | [subject, hdr, total] =>
          publishRow lim subject none (declaredSize hdr) (declaredSize total) true
      | [subject, reply, hdr, total] =>
          publishRow lim subject (some reply) (declaredSize hdr) (declaredSize total) true
      | _ => badArgs true

/-- The table: the row of the line's verb, or an unknown operation. -/
def table (lim : Limits) (line : Bytes) : Except ProtoError Action :=
  match Verb.all.find? (·.heads line) with
  | some v => v.row lim line
  | none => .error (.fatal unknownOp)

/-! ## Arguments -/

/-- What follows a word is gaps and tokens in turn, and a trail of blanks. -/
theorem exists_fill (s : Bytes) (hs : ∀ b ∈ s.head?, isBlank b = true) :
    ∃ gaps toks trail, s = fill gaps toks ++ trail ∧ gaps.length = toks.length ∧
      (∀ g ∈ gaps, g ≠ [] ∧ Blank g) ∧ (∀ t ∈ toks, t ≠ [] ∧ ∀ b ∈ t, isBlank b = false) ∧
      Blank trail := by
  induction hn : s.length using Nat.strong_induction_on generalizing s with
  | _ n ih =>
      subst hn
      have hgap : Blank (s.takeWhile isBlank) := fun b hb => List.mem_takeWhile_imp hb
      cases hr : s.dropWhile isBlank with
      | nil =>
          refine ⟨[], [], s.takeWhile isBlank, ?_, rfl, by simp, by simp, hgap⟩
          conv_lhs => rw [← List.takeWhile_append_dropWhile (p := isBlank) (l := s), hr]
          simp [fill]
      | cons b r =>
          have hsplit : s = s.takeWhile isBlank ++ b :: r := by
            rw [← hr, List.takeWhile_append_dropWhile]
          have hb : isBlank b = false := by
            have := List.head?_dropWhile_not isBlank s
            rw [hr] at this
            exact this
          have hgne : s.takeWhile isBlank ≠ [] := by
            intro hnil
            rw [hnil, List.nil_append] at hsplit
            have := hs b (by rw [hsplit]; rfl)
            rw [hb] at this
            cases this
          -- the token that starts here, and what is behind it
          have htok : (b :: r).takeWhile (!isBlank ·) = b :: r.takeWhile (!isBlank ·) := by
            simp [hb]
          have hrest : (b :: r).dropWhile (!isBlank ·) = r.dropWhile (!isBlank ·) := by
            simp [hb]
          have hhead : ∀ c ∈ (r.dropWhile (!isBlank ·)).head?, isBlank c = true := by
            intro c hc
            have := List.head?_dropWhile_not (!isBlank ·) r
            rw [hc] at this
            simpa using this
          have hlt : (r.dropWhile (!isBlank ·)).length < s.length := by
            have hle := (List.dropWhile_sublist (l := r) (!isBlank ·)).length_le
            have := congrArg List.length hsplit
            rw [List.length_append, List.length_cons] at this
            omega
          obtain ⟨gaps, toks, trail, heq, hlen, hgaps, htoks, htrail⟩ := ih _ hlt _ hhead rfl
          refine ⟨s.takeWhile isBlank :: gaps, (b :: r.takeWhile (!isBlank ·)) :: toks, trail, ?_,
            by simp [hlen], List.forall_mem_cons.mpr ⟨⟨hgne, hgap⟩, hgaps⟩,
            List.forall_mem_cons.mpr ⟨⟨by simp, ?_⟩, htoks⟩, htrail⟩
          · rw [fill_cons_cons, List.append_assoc, List.append_assoc, ← heq, ← htok, ← hrest,
              List.takeWhile_append_dropWhile]
            exact hsplit
          · intro c hc
            rw [← htok] at hc
            simpa using List.mem_takeWhile_imp hc

/-- Tokens with blanks between them are the fields. -/
theorem fields_fill {gaps toks : List Bytes} (hgap : ∀ g ∈ gaps, g ≠ [] ∧ Blank g)
    (htok : ∀ t ∈ toks, t ≠ [] ∧ ∀ b ∈ t, isBlank b = false)
    (hlen : gaps.length = toks.length) {trail : Bytes} (htrail : Blank trail) :
    fields isBlank (fill gaps toks ++ trail) = toks := by
  induction gaps generalizing toks with
  | nil =>
      obtain rfl := List.eq_nil_of_length_eq_zero hlen.symm
      have := fields_append_of_sep htrail []
      rw [List.append_nil, fields_nil] at this
      simpa [fill] using this
  | cons g gaps ih =>
      obtain ⟨t, toks, rfl⟩ := List.exists_cons_of_length_eq_add_one hlen.symm
      obtain ⟨⟨-, hg⟩, hgap⟩ := List.forall_mem_cons.mp hgap
      obtain ⟨⟨hne, ht⟩, htok⟩ := List.forall_mem_cons.mp htok
      have hlen : gaps.length = toks.length := Nat.succ.inj hlen
      rw [fill_cons_cons, List.append_assoc, List.append_assoc, fields_append_of_sep hg,
        fields_append_of_field hne ht (head?_fill hgap hlen htrail), ih hgap htok hlen]

/-- **The argument array** holds the fields of the line, as far as it goes. -/
theorem Args.holds_fields (verb : Bytes) {rest : Bytes}
    (hrest : ∀ b ∈ rest.head?, isBlank b = true) :
    (Args.of rest verb.length).Holds (verb ++ rest) (fields isBlank rest) := by
  obtain ⟨gaps, toks, trail, rfl, hlen, hgap, htok, htrail⟩ := exists_fill rest hrest
  rw [fields_fill hgap htok hlen htrail]
  exact Args.holds_of_fill hgap htok hlen htrail

/-! ## Sizes -/

/-- A size with anything but digits is refused. -/
theorem parseSizeLoop_of_not_digit {d : Bytes} (h : ¬ ∀ b ∈ d, isDigit b = true) (n : ℤ) :
    parseSizeLoop n d = -1 := by
  induction d generalizing n with
  | nil => simp at h
  | cons b d ih =>
      rw [parseSizeLoop]
      split_ifs with hb
      · refine ih (fun hd => h ?_) _
        exact List.forall_mem_cons.mpr ⟨hb, hd⟩
      · rfl

/-- `parse_size` reads the declared size, or returns minus one. -/
theorem parseSize_eq (d : Bytes) :
    parseSize d = (declaredSize d).elim (-1) fun n => (n : ℤ) := by
  unfold parseSize declaredSize
  by_cases hlen : 1 ≤ d.length ∧ d.length ≤ 9
  · have hshort : ¬ (d.isEmpty || decide (d.length > 9)) = true := by
      simp only [Bool.or_eq_true, List.isEmpty_iff, decide_eq_true_eq, not_or, not_lt]
      exact ⟨List.ne_nil_of_length_pos hlen.1, hlen.2⟩
    rw [if_neg hshort]
    split_ifs with hd
    · exact parseSizeLoop_eq hd.2.2 0
    · exact parseSizeLoop_of_not_digit (fun h => hd ⟨hlen.1, hlen.2, h⟩) 0
  · have hlong : (d.isEmpty || decide (d.length > 9)) = true := by
      simp only [Bool.or_eq_true, List.isEmpty_iff, decide_eq_true_eq]
      by_contra hnot
      obtain ⟨hne, hle⟩ := not_or.mp hnot
      exact hlen ⟨List.length_pos_iff.mpr hne, not_lt.mp hle⟩
    rw [if_pos hlong, if_neg fun h => hlen ⟨h.1, h.2.1⟩]
    rfl

/-- The check of the sizes is that of the table. -/
theorem pubSizes_eq (subject : Bytes) (reply : Option Bytes) (hdr total : Option ℕ) (hpub : Bool)
    (lim : Limits) :
    pubSizes subject reply (hdr.elim (-1) fun n => (n : ℤ)) (total.elim (-1) fun n => (n : ℤ))
      hpub lim = publishRow lim subject reply hdr total hpub := by
  unfold pubSizes publishRow
  cases hdr with
  | none => simp
  | some hdr =>
      cases total with
      | none => simp
      | some total =>
          have hneg : ((hdr : ℤ) < 0 ∨ (total : ℤ) < 0 ∨ (hdr : ℤ) > total) ↔ total < hdr := by
            omega
          simp only [Option.elim_some, hneg, Int.toNat_natCast, gt_iff_lt]

/-! ## Rows -/

theorem Args.Holds.count_eq {line : Bytes} {args : Args} {toks : List Bytes}
    (h : args.Holds line toks) : args.count = min toks.length 5 := by
  rw [Args.count, h.len]

/-- PUB has two or three arguments. -/
theorem pubShape_pub_eq_none {n : ℕ} (htwo : n ≠ 2) (hthree : n ≠ 3) :
    pubShape false n = none := by
  unfold pubShape
  split <;> simp_all

/-- HPUB has three or four arguments. -/
theorem pubShape_hpub_eq_none {n : ℕ} (hthree : n ≠ 3) (hfour : n ≠ 4) :
    pubShape true n = none := by
  unfold pubShape
  split <;> simp_all

section Rows

variable (verb : Bytes) {rest : Bytes} (hrest : ∀ b ∈ rest.head?, isBlank b = true)

include hrest

/-- SUB is parsed as the table says. -/
theorem subLine_eq_row : subLine (verb ++ rest) rest verb.length =
    match fields isBlank rest with
    | [subject, sid] => .ok (.event (.subscribe subject none sid))
    | [subject, queue, sid] => .ok (.event (.subscribe subject (some queue) sid))
    | _ => .error .silent := by
  have h := Args.holds_fields verb hrest
  generalize fields isBlank rest = toks at h
  have hother : toks.length ≠ 2 → toks.length ≠ 3 →
      subLine (verb ++ rest) rest verb.length = .error .silent := by
    intro htwo hthree
    have hcount := h.count_eq
    unfold subLine
    simp only
    split <;> first | rfl | omega
  match toks, h with
  | [], _ => exact hother (by simp) (by simp)
  | [_], _ => exact hother (by simp) (by simp)
  | [subject, sid], h => exact @subLine_of_holds _ _ _ _ none _ h
  | [subject, queue, sid], h => exact @subLine_of_holds _ _ _ _ (some queue) _ h
  | _ :: _ :: _ :: _ :: _, _ => exact hother (by simp) (by simp)

/-- UNSUB is parsed as the table says. -/
theorem unsubLine_eq_row : unsubLine (verb ++ rest) rest verb.length =
    match fields isBlank rest with
    | [sid] => .ok (.event (.unsubscribe sid (-1)))
    | [sid, max] =>
        .ok (.event (.unsubscribe sid ((declaredSize max).elim (-1) fun n => (n : ℤ))))
    | _ => .error .silent := by
  have h := Args.holds_fields verb hrest
  generalize fields isBlank rest = toks at h
  have hcount := h.count_eq
  have hother : toks.length ≠ 1 → toks.length ≠ 2 →
      unsubLine (verb ++ rest) rest verb.length = .error .silent := by
    intro hone htwo
    unfold unsubLine
    simp only
    split <;> first | rfl | omega
  match toks, h, hcount with
  | [], _, _ => exact hother (by simp) (by simp)
  | [sid], h, hcount =>
      have hcount : (Args.of rest verb.length).count = 1 := hcount
      simp only [unsubLine, hcount, h.slice 0 sid rfl]
  | [sid, max], h, hcount =>
      have hcount : (Args.of rest verb.length).count = 2 := hcount
      simp only [unsubLine, hcount, h.slice 0 sid rfl, h.slice 1 max rfl, parseSize_eq]
  | _ :: _ :: _ :: _, _, _ => exact hother (by simp) (by simp)

/-- PUB is parsed as the table says. -/
theorem pubLine_eq_row (lim : Limits) : pubLine (verb ++ rest) rest true false lim =
    match fields isBlank rest with
    | [subject, total] => publishRow lim subject none (some 0) (declaredSize total) false
    | [subject, reply, total] =>
        publishRow lim subject (some reply) (some 0) (declaredSize total) false
    | _ => badArgs false := by
  have h := Args.holds_fields verb hrest
  have hbase : (verb ++ rest).length - rest.length = verb.length := by
    rw [List.length_append, Nat.add_sub_cancel]
  generalize fields isBlank rest = toks at h
  have hcount := h.count_eq
  simp only [pubLine, Bool.not_true, Bool.false_eq_true, if_false, hbase]
  have hother : toks.length ≠ 2 → toks.length ≠ 3 →
      pubShape false (Args.of rest verb.length).count = none := by
    intro htwo hthree
    exact pubShape_pub_eq_none (by omega) (by omega)
  rcases toks with _ | ⟨subject, _ | ⟨second, _ | ⟨third, _ | ⟨_, _⟩⟩⟩⟩
  · rw [hother (by simp) (by simp)]
  · rw [hother (by simp) (by simp)]
  · have hcount : (Args.of rest verb.length).count = 2 := hcount
    simp only [hcount, pubShape, h.slice 0 subject rfl, h.slice 1 second rfl, parseSize_eq,
      Option.map_none, ← pubSizes_eq]
    rfl
  · have hcount : (Args.of rest verb.length).count = 3 := hcount
    simp only [hcount, pubShape, h.slice 0 subject rfl, h.slice 1 second rfl,
      h.slice 2 third rfl, parseSize_eq, Option.map_some, ← pubSizes_eq]
    rfl
  · rw [hother (by simp) (by simp)]

/-- HPUB is parsed as the table says. -/
theorem hpubLine_eq_row (lim : Limits) : pubLine (verb ++ rest) rest true true lim =
    match fields isBlank rest with
    | [subject, hdr, total] =>
        publishRow lim subject none (declaredSize hdr) (declaredSize total) true
    | [subject, reply, hdr, total] =>
        publishRow lim subject (some reply) (declaredSize hdr) (declaredSize total) true
    | _ => badArgs true := by
  have h := Args.holds_fields verb hrest
  have hbase : (verb ++ rest).length - rest.length = verb.length := by
    rw [List.length_append, Nat.add_sub_cancel]
  generalize fields isBlank rest = toks at h
  have hcount := h.count_eq
  simp only [pubLine, Bool.not_true, Bool.false_eq_true, if_false, if_true, hbase]
  have hother : toks.length ≠ 3 → toks.length ≠ 4 →
      pubShape true (Args.of rest verb.length).count = none := by
    intro hthree hfour
    exact pubShape_hpub_eq_none (by omega) (by omega)
  rcases toks with _ | ⟨subject, _ | ⟨second, _ | ⟨third, _ | ⟨fourth, _ | ⟨_, _⟩⟩⟩⟩⟩
  · rw [hother (by simp) (by simp)]
  · rw [hother (by simp) (by simp)]
  · rw [hother (by simp) (by simp)]
  · have hcount : (Args.of rest verb.length).count = 3 := hcount
    simp only [hcount, pubShape, h.slice 0 subject rfl, h.slice 1 second rfl, h.slice 2 third rfl,
      parseSize_eq, Option.map_none, ← pubSizes_eq]
  · have hcount : (Args.of rest verb.length).count = 4 := hcount
    simp only [hcount, pubShape, h.slice 0 subject rfl, h.slice 1 second rfl, h.slice 2 third rfl,
      h.slice 3 fourth rfl, parseSize_eq, Option.map_some, ← pubSizes_eq]
  · rw [hother (by simp) (by simp)]

end Rows

/-! ## Recognising the verb -/

theorem word_append_behind (line : Bytes) : word line ++ behind line = line :=
  List.takeWhile_append_dropWhile

theorem word_eq (line : Bytes) : word line = line.take (line.findIdx isBlank) := by
  simp [word, List.takeWhile_eq_take_findIdx_not]

theorem behind_eq (line : Bytes) : behind line = line.drop (line.findIdx isBlank) := by
  simp [behind, List.dropWhile_eq_drop_findIdx_not]

theorem length_word (line : Bytes) : (word line).length = line.findIdx isBlank := by
  rw [word_eq, List.length_take, min_eq_left List.findIdx_le_length]

/-- What is behind the first word begins with a blank. -/
theorem head?_behind (line : Bytes) : ∀ b ∈ (behind line).head?, isBlank b = true := by
  intro b hb
  have := List.head?_dropWhile_not (!isBlank ·) line
  rw [behind] at hb
  rw [hb] at this
  simpa using this

/-- A line begins with a name, in any case. -/
theorem folded_take_eq_iff {line name : Bytes} :
    folded (line.take name.length) = folded name ↔
      name.length ≤ line.length ∧ eqIgnore (line.take name.length) name = true := by
  rw [eqIgnore_iff, folded, folded]
  refine ⟨fun h => ⟨?_, h⟩, And.right⟩
  have := congrArg List.length h
  simp only [List.length_map, List.length_take] at this
  omega

/-- The test of a verb that may be followed by anything. -/
theorem heads_loose {v : Verb} (hv : v.loose = true) (line : Bytes) :
    v.heads line = (decide (v.name.length ≤ line.length) &&
      eqIgnore (line.take v.name.length) v.name) := by
  rw [Verb.heads, if_pos hv, Bool.eq_iff_iff, beq_iff_eq, folded_take_eq_iff]
  simp

/-- The test of a verb that is a word of its own. -/
theorem heads_word {v : Verb} (hv : v.loose = false) (line : Bytes) :
    v.heads line = (line.findIdx isBlank == v.name.length &&
      eqIgnore (line.take v.name.length) v.name) := by
  rw [Verb.heads, hv, Bool.eq_iff_iff]
  simp only [Bool.false_eq_true, if_false, beq_iff_eq, Bool.and_eq_true]
  have hlen : folded (word line) = folded v.name → line.findIdx isBlank = v.name.length := by
    intro h
    have := congrArg List.length h
    simp only [folded, List.length_map, length_word] at this
    exact this
  constructor
  · intro h
    refine ⟨hlen h, ?_⟩
    rw [← hlen h, ← word_eq, eqIgnore_iff]
    exact h
  · rintro ⟨hidx, heq⟩
    rw [← hidx, ← word_eq, eqIgnore_iff] at heq
    exact heq

/-- Either way the line starts with the letters of the verb. -/
theorem take_of_heads {v : Verb} {line : Bytes} (h : v.heads line = true) :
    folded (line.take v.name.length) = folded v.name := by
  cases hv : v.loose with
  | true =>
      rw [heads_loose hv, Bool.and_eq_true] at h
      exact eqIgnore_iff.mp h.2
  | false =>
      rw [heads_word hv, Bool.and_eq_true] at h
      exact eqIgnore_iff.mp h.2

/-- No two verbs start alike. -/
theorem names_differ : ∀ v ∈ Verb.all, ∀ v' ∈ Verb.all,
    (folded v.name).take v'.name.length = (folded v'.name).take v.name.length → v = v' := by
  decide +kernel

/-- A line has one verb at most. -/
theorem eq_of_heads {v v' : Verb} {line : Bytes} (h : v.heads line = true)
    (h' : v'.heads line = true) : v = v' := by
  refine names_differ v v.mem_all v' v'.mem_all ?_
  rw [← take_of_heads h, ← take_of_heads h']
  simp only [folded, ← List.map_take, List.take_take, min_comm]

/-- The first byte of a line is that of its verb. -/
theorem head?_of_heads {v : Verb} {line : Bytes} (h : v.heads line = true) :
    line.head?.map asciiLower = (folded v.name).head? := by
  have hne : v.name ≠ [] := by cases v <;> decide
  rw [← take_of_heads h, folded, List.head?_map, List.head?_take]
  simp [hne]

/-! ## The parser computes the table -/

/-- A line that is kept whole is parsed as the table says. -/
theorem prefixLine_eq_row (line : Bytes) (n : ℕ) (ev : Bytes → Event) :
    prefixLine line n ev = restRow (line.drop n) ev := by
  unfold prefixLine restRow argAt
  cases hi : (line.drop n).findIdx? fun b => !isBlank b with
  | none =>
      have hblank : (line.drop n).dropWhile isBlank = [] := by
        rw [List.dropWhile_eq_nil_iff]
        intro b hb
        simpa using List.findIdx?_eq_none_iff.mp hi b hb
      rw [hblank]
  | some i =>
      obtain ⟨hlt, hidx⟩ := List.findIdx?_eq_some_iff_findIdx_eq.mp hi
      have hdrop : (line.drop n).dropWhile isBlank = line.drop (n + i) := by
        rw [List.dropWhile_eq_drop_findIdx_not, hidx, List.drop_drop]
      have hne : line.drop (n + i) ≠ [] := by
        rw [List.length_drop] at hlt
        rw [Ne, List.drop_eq_nil_iff]
        omega
      rw [hdrop]
      cases harg : line.drop (n + i) with
      | nil => exact absurd harg hne
      | cons b arg => simp only [harg]

section Separated

variable (line : Bytes) (lim : Limits)

/-- The parser tells a verb without a separator by what is behind its word. -/
theorem separatedRow_eq {args : Except ProtoError Action}
    {row : List Bytes → Except ProtoError Action}
    (h : args = row (fields isBlank (behind line))) :
    (if !!(behind line).isEmpty then .error (.fatal unknownOp) else args) =
      separatedRow line row := by
  simp only [separatedRow, Bool.not_not, List.isEmpty_iff, h]

/-- The row of `-ERR`. -/
theorem err_row :
    (if !!(behind line).isEmpty then .error (.fatal unknownOp) else .ok (.event .clientErr)) =
      Verb.err.row lim line := by
  rw [Verb.row]
  exact separatedRow_eq line rfl

/-- The row of SUB. -/
theorem sub_row :
    (if !!(behind line).isEmpty then .error (.fatal unknownOp)
      else subLine line (behind line) (line.findIdx isBlank)) = Verb.sub.row lim line := by
  rw [Verb.row]
  refine separatedRow_eq line ?_
  have h := subLine_eq_row (word line) (head?_behind line)
  rwa [word_append_behind, length_word] at h

/-- The row of UNSUB. -/
theorem unsub_row :
    (if !!(behind line).isEmpty then .error (.fatal unknownOp)
      else unsubLine line (behind line) (line.findIdx isBlank)) = Verb.unsub.row lim line := by
  rw [Verb.row]
  refine separatedRow_eq line ?_
  have h := unsubLine_eq_row (word line) (head?_behind line)
  rwa [word_append_behind, length_word] at h

theorem pubLine_eq_ite (rest : Bytes) (hasArgs hpub : Bool) :
    pubLine line rest hasArgs hpub lim =
      if !hasArgs then .error (.fatal unknownOp) else pubLine line rest true hpub lim := by
  cases hasArgs <;> rfl

/-- The row of PUB. -/
theorem pub_row :
    pubLine line (behind line) (!(behind line).isEmpty) false lim = Verb.pub.row lim line := by
  rw [Verb.row, pubLine_eq_ite]
  refine separatedRow_eq line ?_
  have h := pubLine_eq_row (word line) (head?_behind line) lim
  rwa [word_append_behind] at h

/-- The row of HPUB. -/
theorem hpub_row :
    pubLine line (behind line) (!(behind line).isEmpty) true lim = Verb.hpub.row lim line := by
  rw [Verb.row, pubLine_eq_ite]
  refine separatedRow_eq line ?_
  have h := hpubLine_eq_row (word line) (head?_behind line) lim
  rwa [word_append_behind] at h

end Separated

/-- The dispatch of the parser, with the tests of the table. -/
theorem parseLine_eq_heads (line : Bytes) (lim : Limits) : parseLine line lim =
    match line.head?.map asciiLower with
    | some 112 =>
        if Verb.ping.heads line then Verb.ping.row lim line
        else if Verb.pong.heads line then Verb.pong.row lim line
        else if Verb.pub.heads line then Verb.pub.row lim line
        else .error (.fatal unknownOp)
    | some 104 =>
        if Verb.hpub.heads line then Verb.hpub.row lim line else .error (.fatal unknownOp)
    | some 99 =>
        if Verb.connect.heads line then Verb.connect.row lim line
        else .error (.fatal unknownOp)
    | some 105 =>
        if Verb.info.heads line then Verb.info.row lim line else .error (.fatal unknownOp)
    | some 43 =>
        if Verb.ok.heads line then Verb.ok.row lim line else .error (.fatal unknownOp)
    | some 45 =>
        if Verb.err.heads line then Verb.err.row lim line else .error (.fatal unknownOp)
    | some 115 =>
        if Verb.sub.heads line then Verb.sub.row lim line else .error (.fatal unknownOp)
    | some 117 =>
        if Verb.unsub.heads line then Verb.unsub.row lim line else .error (.fatal unknownOp)
    | _ => .error (.fatal unknownOp) := by
  have hping : starts line (ascii "PING") = Verb.ping.heads line :=
    (@heads_loose .ping rfl line).symm
  have hpong : starts line (ascii "PONG") = Verb.pong.heads line :=
    (@heads_loose .pong rfl line).symm
  have hconnect : (decide (7 ≤ line.length) && eqIgnore (line.take 7) (ascii "CONNECT")) =
      Verb.connect.heads line := (@heads_loose .connect rfl line).symm
  have hinfo : (decide (4 ≤ line.length) && eqIgnore (line.take 4) (ascii "INFO")) =
      Verb.info.heads line := (@heads_loose .info rfl line).symm
  have hpub : (line.findIdx isBlank == 3 && eqIgnore (line.take 3) (ascii "PUB")) =
      Verb.pub.heads line := (@heads_word .pub rfl line).symm
  have hhpub : (line.findIdx isBlank == 4 && eqIgnore (line.take 4) (ascii "HPUB")) =
      Verb.hpub.heads line := (@heads_word .hpub rfl line).symm
  have hok : (line.findIdx isBlank == 3 && eqIgnore (line.take 3) (ascii "+OK")) =
      Verb.ok.heads line := (@heads_word .ok rfl line).symm
  have herr : (line.findIdx isBlank == 4 && eqIgnore (line.take 4) (ascii "-ERR")) =
      Verb.err.heads line := (@heads_word .err rfl line).symm
  have hsub : (line.findIdx isBlank == 3 && eqIgnore (line.take 3) (ascii "SUB")) =
      Verb.sub.heads line := (@heads_word .sub rfl line).symm
  have hunsub : (line.findIdx isBlank == 5 && eqIgnore (line.take 5) (ascii "UNSUB")) =
      Verb.unsub.heads line := (@heads_word .unsub rfl line).symm
  simp only [parseLine, hping, hpong, hconnect, hinfo, hpub, hhpub, hok, herr, hsub, hunsub,
    ← behind_eq, pub_row, hpub_row, err_row line lim, sub_row line lim, unsub_row line lim,
    prefixLine_eq_row]
  rfl

/-- A line with a verb has the row of its verb. -/
theorem parseLine_of_heads {v : Verb} {line : Bytes} (h : v.heads line = true) (lim : Limits) :
    parseLine line lim = v.row lim line := by
  have hother : ∀ v' : Verb, v' ≠ v → v'.heads line = false := by
    intro v' hne
    by_contra hv'
    exact hne (eq_of_heads (Bool.not_eq_false _ ▸ hv') h)
  have hhead := head?_of_heads h
  rw [parseLine_eq_heads, hhead]
  cases v with
  | ping => exact if_pos h
  | pong =>
      show (if _ then _ else _) = _
      rw [hother .ping (by decide)]
      exact if_pos h
  | pub =>
      show (if _ then _ else _) = _
      rw [hother .ping (by decide), hother .pong (by decide)]
      exact if_pos h
  | _ => exact if_pos h

/-- A line without a verb is an unknown operation. -/
theorem parseLine_of_no_verb {line : Bytes} (h : ∀ v : Verb, v.heads line = false)
    (lim : Limits) : parseLine line lim = .error (.fatal unknownOp) := by
  rw [parseLine_eq_heads]
  simp only [h, Bool.false_eq_true, if_false]
  split <;> rfl

/-- **The parser computes the table** on every line, however many arguments stand on it. -/
theorem parseLine_table (line : Bytes) (lim : Limits) : parseLine line lim = table lim line := by
  unfold table
  cases hfind : Verb.all.find? (·.heads line) with
  | none =>
      refine parseLine_of_no_verb (fun v => ?_) lim
      simpa using List.find?_eq_none.mp hfind v v.mem_all
  | some v =>
      have hheads := List.find?_some hfind
      exact parseLine_of_heads hheads lim

end Proto

end NatsServer
