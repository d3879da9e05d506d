/-
# What a client writes, the parser reads

The operations of a client (`ClientOp`) and the ways to write them (`Written`): the verb in
any letter case, the arguments behind runs of blanks, a counted body behind the line of a
publish.  A fresh parser that is given the text of any list of operations in one buffer
emits their events and nothing else (`feedInto_written`).

A line ends at its first CRLF and a body where its size says, so a body may hold anything,
another line included; and an argument may end in a CR, which then stands before the CRLF
of its line.
-/
import NatsServer.Events
import NatsServer.Frames

namespace NatsServer

namespace Proto

open Delimited Frames

/-! ## Operations -/

/-- An operation of a client. -/
inductive ClientOp where
  | connect (json : Bytes)
  | sub (subject : Bytes) (queue : Option Bytes) (sid : Bytes)
  | unsub (sid : Bytes) (max : Option ℕ)
  | pub (subject : Bytes) (reply : Option Bytes) (body : Bytes)
  | hpub (subject : Bytes) (reply : Option Bytes) (hdr : ℕ) (body : Bytes)
  | ping
  | pong
  deriving DecidableEq

namespace ClientOp

/-- The verb, in capitals. -/
def verb : ClientOp → Bytes
  | .connect _ => ascii "CONNECT"
  | .sub _ _ _ => ascii "SUB"
  | .unsub _ _ => ascii "UNSUB"
  | .pub _ _ _ => ascii "PUB"
  | .hpub _ _ _ _ => ascii "HPUB"
  | .ping => ascii "PING"
  | .pong => ascii "PONG"

/-- The arguments of the control line. -/
def args : ClientOp → List Bytes
  | .connect json => [json]
  | .sub subject queue sid => subject :: (queue.toList ++ [sid])
  | .unsub sid max => sid :: (max.map pushU64).toList
  | .pub subject reply body => subject :: (reply.toList ++ [pushU64 body.length])
  | .hpub subject reply hdr body =>
      subject :: (reply.toList ++ [pushU64 hdr, pushU64 body.length])
  | .ping => []
  | .pong => []

/-- What follows the control line. -/
def payload : ClientOp → Bytes
  | .pub _ _ body => body ++ crlf
  | .hpub _ _ _ body => body ++ crlf
  | _ => []

/-- The events the operation stands for. -/
def events : ClientOp → List Event
  | .connect json => [.connect json]
  | .sub subject queue sid => [.subscribe subject queue sid]
  | .unsub sid max => [.unsubscribe sid (max.elim (-1) fun n => (n : ℤ))]
  | .pub subject reply body => [.publish subject reply 0 body.length false body]
  | .hpub subject reply hdr body =>
      [.hpubAttempt .ok, .publish subject reply hdr body.length true body]
  | .ping => [.ping]
  | .pong => [.pong]

end ClientOp

/-- A token: not empty, without a space, a tab or a CRLF. -/
structure IsToken (t : Bytes) : Prop where
  ne_nil : t ≠ []
  noBlank : ∀ b ∈ t, isBlank b = false
  noCrlf : findPair 13 10 t = none

instance : DecidablePred IsToken := fun t =>
  decidable_of_iff (t ≠ [] ∧ (∀ b ∈ t, isBlank b = false) ∧ findPair 13 10 t = none)
    ⟨fun ⟨h₁, h₂, h₃⟩ => ⟨h₁, h₂, h₃⟩, fun h => ⟨h.ne_nil, h.noBlank, h.noCrlf⟩⟩

/-- What an operation may consist of. -/
def ClientOp.Valid (lim : Limits) : ClientOp → Prop
  | .connect json => (∃ b ∈ json.head?, isBlank b = false) ∧ findPair 13 10 json = none
  | .sub subject queue sid => IsToken subject ∧ (∀ q ∈ queue, IsToken q) ∧ IsToken sid
  | .unsub sid max => IsToken sid ∧ ∀ n ∈ max, n < 10 ^ 9
  | .pub subject reply body =>
      IsToken subject ∧ (∀ r ∈ reply, IsToken r) ∧ body.length ≤ lim.maxPayload
  | .hpub subject reply hdr body =>
      IsToken subject ∧ (∀ r ∈ reply, IsToken r) ∧ hdr ≤ body.length ∧
        body.length ≤ lim.maxPayload
  | .ping => True
  | .pong => True

instance (lim : Limits) : DecidablePred (ClientOp.Valid lim) := fun op =>
  match op with
  | .connect _ => inferInstanceAs (Decidable (_ ∧ _))
  | .sub _ _ _ => inferInstanceAs (Decidable (_ ∧ _))
  | .unsub _ _ => inferInstanceAs (Decidable (_ ∧ _))
  | .pub _ _ _ => inferInstanceAs (Decidable (_ ∧ _))
  | .hpub _ _ _ _ => inferInstanceAs (Decidable (_ ∧ _))
  | .ping => inferInstanceAs (Decidable True)
  | .pong => inferInstanceAs (Decidable True)

/-- A run of spaces and tabs. -/
def Blank (g : Bytes) : Prop := ∀ b ∈ g, isBlank b = true

instance : DecidablePred Blank := fun g =>
  inferInstanceAs (Decidable (∀ b ∈ g, isBlank b = true))

/-- The arguments, each behind its gap. -/
def fill (gaps args : List Bytes) : Bytes := (List.zipWith (· ++ ·) gaps args).flatten

/-- An operation as it is written: the verb in some letter case, a gap before each argument
and possibly blanks at the end, which for a `CONNECT` would be part of its argument. -/
structure Written where
  op : ClientOp
  verb : Bytes
  gaps : List Bytes
  trail : Bytes
  verb_eq : verb.map asciiLower = op.verb.map asciiLower
  length_gaps : gaps.length = op.args.length
  gap : ∀ g ∈ gaps, g ≠ [] ∧ Blank g
  blank_trail : Blank trail
  trail_connect : ∀ json, op = .connect json → trail = []

namespace Written

/-- The control line. -/
def line (w : Written) : Bytes := w.verb ++ (fill w.gaps w.op.args ++ w.trail)

/-- The bytes on the wire. -/
def bytes (w : Written) : Bytes := w.line ++ crlf ++ w.op.payload

end Written

/-! ## Reading the arguments -/

/-- The stored arguments are these. -/
structure Args.Holds (line : Bytes) (args : Args) (toks : List Bytes) : Prop where
  len : args.len = toks.length
  slice : ∀ (i : Fin maxArgs) (t : Bytes), getElem? toks i.val = some t → args.slice line i = t

/-- One more range is one more token. -/
theorem Args.Holds.push {line : Bytes} {args : Args} {toks : List Bytes}
    (h : args.Holds line toks) {start stop : ℕ} {t : Bytes}
    (ht : (line.drop (args.base + start)).take (stop - start) = t) :
    (args.push start stop).Holds line (toks ++ [t]) where
  len := by
    have hlen : (args.push start stop).len = args.len + 1 := rfl
    rw [hlen, h.len, List.length_append, List.length_singleton]
  slice := by
    intro i t' hi
    by_cases hlast : i.val = args.len
    · rw [hlast, h.len, List.getElem?_append_right le_rfl, Nat.sub_self] at hi
      rw [Args.slice_push_last hlast, ht]
      exact Option.some.inj hi
    · rw [Args.slice_push_of_ne hlast]
      have hlt : i.val < toks.length := by
        have := (List.getElem?_eq_some_iff.mp hi).1
        rw [List.length_append, List.length_singleton] at this
        have := h.len
        omega
      rw [List.getElem?_append_left hlt] at hi
      exact h.slice i t' hi

/-- The loop passes over a run of blanks. -/
theorem Args.ofLoop_blank (args : Args) {g : Bytes} (hg : Blank g) (i : ℕ) (s : Bytes) :
    args.ofLoop none i (g ++ s) = args.ofLoop none (i + g.length) s := by
  induction g generalizing i with
  | nil => rfl
  | cons b g ih =>
      obtain ⟨hb, hg⟩ := List.forall_mem_cons.mp hg
      rw [List.cons_append, Args.ofLoop.eq_def]
      simp only [hb, if_true]
      rw [ih hg, List.length_cons]
      congr 1
      omega

/-- Within an argument it only goes on. -/
theorem Args.ofLoop_within (args : Args) {t : Bytes} (ht : ∀ b ∈ t, isBlank b = false)
    (start i : ℕ) (s : Bytes) :
    args.ofLoop (some start) i (t ++ s) = args.ofLoop (some start) (i + t.length) s := by
  induction t generalizing i with
  | nil => rfl
  | cons b t ih =>
      obtain ⟨hb, ht⟩ := List.forall_mem_cons.mp ht
      rw [List.cons_append, Args.ofLoop.eq_def]
      simp only [hb, Bool.false_eq_true, if_false, Option.getD_some]
      rw [ih ht, List.length_cons]
      congr 1
      omega

/-- A token in front of a blank or of the end is one argument. -/
theorem Args.ofLoop_token (args : Args) {t : Bytes} (hne : t ≠ [])
    (ht : ∀ b ∈ t, isBlank b = false) (i : ℕ) {s : Bytes}
    (hs : ∀ b ∈ s.head?, isBlank b = true) :
    args.ofLoop none i (t ++ s) =
      (args.push i (i + t.length)).ofLoop none (i + t.length) s := by
  have hstart : args.ofLoop none i (t ++ s) = args.ofLoop (some i) (i + t.length) s := by
    obtain ⟨b, t, rfl⟩ := List.exists_cons_of_ne_nil hne
    obtain ⟨hb, ht⟩ := List.forall_mem_cons.mp ht
    rw [List.cons_append, Args.ofLoop.eq_def]
    simp only [hb, Bool.false_eq_true, if_false, Option.getD_none]
    rw [Args.ofLoop_within args ht, List.length_cons]
    congr 1
    omega
  rw [hstart]
  cases s with
  | nil => rfl
  | cons b s =>
      have hb : isBlank b = true := hs b rfl
      rw [Args.ofLoop.eq_def, Args.ofLoop.eq_def _ none]
      simp only [hb, if_true]

theorem fill_cons_cons (g t : Bytes) (gaps toks : List Bytes) :
    fill (g :: gaps) (t :: toks) = g ++ (t ++ fill gaps toks) := by
  simp [fill]

/-- What stands behind an argument starts with a blank, or is the end. -/
theorem head?_fill {gaps : List Bytes} (hgap : ∀ g ∈ gaps, g ≠ [] ∧ Blank g)
    {toks : List Bytes} (hlen : gaps.length = toks.length) {trail : Bytes} (htrail : Blank trail) :
    ∀ b ∈ (fill gaps toks ++ trail).head?, isBlank b = true := by
  intro b hb
  cases gaps with
  | nil =>
      rw [fill, List.zipWith_nil_left, List.flatten_nil, List.nil_append] at hb
      exact htrail b (List.mem_of_mem_head? hb)
  | cons g gaps =>
      obtain ⟨t, toks, rfl⟩ := List.exists_cons_of_length_eq_add_one hlen.symm
      obtain ⟨hne, hg⟩ := hgap g List.mem_cons_self
      rw [fill_cons_cons, List.append_assoc, List.head?_append_of_ne_nil _ hne] at hb
      exact hg b (List.mem_of_mem_head? hb)

/-- The loop of `Args::of` in front of a gap: the tokens join the arguments it has. -/
theorem Args.Holds.ofLoop_fill {line trail : Bytes} {gaps toks done : List Bytes} {args : Args}
    (h : args.Holds line done) (hgap : ∀ g ∈ gaps, g ≠ [] ∧ Blank g)
    (htok : ∀ t ∈ toks, t ≠ [] ∧ ∀ b ∈ t, isBlank b = false)
    (hlen : gaps.length = toks.length) (htrail : Blank trail) {i : ℕ}
    (hline : line.drop (args.base + i) = fill gaps toks ++ trail) :
    (args.ofLoop none i (fill gaps toks ++ trail)).Holds line (done ++ toks) := by
  induction gaps generalizing toks done args i with
  | nil =>
      obtain rfl := List.eq_nil_of_length_eq_zero hlen.symm
      have hend := args.ofLoop_blank htrail i []
      rw [List.append_nil] at hend
      rw [fill, List.zipWith_nil_left, List.flatten_nil, List.nil_append, hend, List.append_nil]
      exact h
  | cons g gaps ih =>
      obtain ⟨t, toks, rfl⟩ := List.exists_cons_of_length_eq_add_one hlen.symm
      obtain ⟨⟨-, hg⟩, hgap⟩ := List.forall_mem_cons.mp hgap
      obtain ⟨⟨hne, ht⟩, htok⟩ := List.forall_mem_cons.mp htok
      have hlen : gaps.length = toks.length := Nat.succ.inj hlen
      rw [fill_cons_cons, List.append_assoc, List.append_assoc] at hline ⊢
      -- the gap is skipped, the token is pushed, and the loop is in front of the next gap
      rw [Args.ofLoop_blank args hg, Args.ofLoop_token args hne ht _ (head?_fill hgap hlen htrail)]
      have hdrop : line.drop (args.base + (i + g.length)) = t ++ (fill gaps toks ++ trail) := by
        rw [← Nat.add_assoc, ← List.drop_drop, hline, List.drop_left]
      have hcut : (line.drop (args.base + (i + g.length))).take
          (i + g.length + t.length - (i + g.length)) = t := by
        rw [hdrop, Nat.add_sub_cancel_left, List.take_left]
      have hpush := ih (h.push hcut) hgap htok hlen
        (show line.drop (args.base + (i + g.length + t.length)) = _ by
          rw [← Nat.add_assoc, ← List.drop_drop, hdrop, List.drop_left])
      rwa [List.append_assoc, List.singleton_append] at hpush

/-- **The arguments of a written line.** -/
theorem Args.holds_of_fill {verb trail : Bytes} {gaps toks : List Bytes}
    (hgap : ∀ g ∈ gaps, g ≠ [] ∧ Blank g)
    (htok : ∀ t ∈ toks, t ≠ [] ∧ ∀ b ∈ t, isBlank b = false)
    (hlen : gaps.length = toks.length) (htrail : Blank trail) :
    (Args.of (fill gaps toks ++ trail) verb.length).Holds
      (verb ++ (fill gaps toks ++ trail)) toks := by
  have hnone : (⟨fun _ => (0, 0), 0, verb.length⟩ : Args).Holds
      (verb ++ (fill gaps toks ++ trail)) [] := ⟨rfl, fun _ _ h => by cases h⟩
  exact hnone.ofLoop_fill hgap htok hlen htrail List.drop_left

/-! ## Reading the sizes -/

/-- On digits the loop is the decimal reading. -/
theorem parseSizeLoop_eq {d : Bytes} (hd : ∀ b ∈ d, isDigit b = true) (n : ℕ) :
    parseSizeLoop n d = (d.foldl readDigit n : ℕ) := by
  induction d generalizing n with
  | nil => rfl
  | cons b d ih =>
      obtain ⟨hb, hd⟩ := List.forall_mem_cons.mp hd
      have hsub : (b - 48).toNat = b.toNat - 48 := by
        simp only [isDigit, Bool.and_eq_true, decide_eq_true_eq] at hb
        exact UInt8.toNat_sub_of_le _ _ hb.1
      have hstep : (n : ℤ) * 10 + ((b - 48).toNat : ℤ) = (readDigit n b : ℕ) := by
        rw [hsub, readDigit]
        push_cast
        rfl
      rw [parseSizeLoop, if_pos hb, hstep, ih hd, List.foldl_cons]

/-- A size below 10^9 is read back. -/
theorem parseSize_pushU64 {n : ℕ} (hn : n < 10 ^ 9) : parseSize (pushU64 n) = n := by
  have hlen : (pushU64 n).length ≤ 9 := by
    have hlog : Nat.log 10 n < 9 := Nat.log_lt_of_lt_pow' (by decide) hn
    rw [length_pushU64]
    omega
  have hempty : (pushU64 n).isEmpty = false := by
    simpa using pushU64_ne_nil n
  have hvalue := parseSizeLoop_eq (fun b hb => isDigit_of_mem_pushU64 b hb) 0 (d := pushU64 n)
  rw [parseSize, if_neg (by simp [hempty, hlen])]
  rw [foldl_pushU64 (by omega)] at hvalue
  exact hvalue

/-- A number is a token. -/
theorem isToken_pushU64 (n : ℕ) : IsToken (pushU64 n) := by
  have hdigit : ∀ b ∈ pushU64 n, 48 ≤ b.toNat := by
    intro b hb
    have := isDigit_of_mem_pushU64 b hb
    simp only [isDigit, Bool.and_eq_true, decide_eq_true_eq, UInt8.le_iff_toNat_le] at this
    exact this.1
  refine ⟨pushU64_ne_nil n, fun b hb => ?_, findPair_eq_none_of_not_mem fun hb => ?_⟩
  · have hne : b ≠ 32 ∧ b ≠ 9 := by
      constructor
      · rintro rfl
        exact absurd (hdigit 32 hb) (by decide)
      · rintro rfl
        exact absurd (hdigit 9 hb) (by decide)
    simp [isBlank, hne.1, hne.2]
  · exact absurd (hdigit 13 hb) (by decide)

/-! ## Reading the verb -/

/-- Two texts are equal up to case if their lower case is the same. -/
theorem eqIgnore_iff {a b : Bytes} : eqIgnore a b = true ↔ a.map asciiLower = b.map asciiLower := by
  induction a generalizing b with
  | nil => cases b <;> simp [eqIgnore]
  | cons x a ih =>
      cases b with
      | nil => simp [eqIgnore]
      | cons y b =>
          have := ih (b := b)
          simp only [eqIgnore, Bool.and_eq_true, beq_iff_eq] at this
          simp only [eqIgnore, List.length_cons, List.zip_cons_cons, List.all_cons, List.map_cons,
            List.cons.injEq, ← this, Bool.and_eq_true, beq_iff_eq, Nat.add_right_cancel_iff]
          tauto

/-- The verbs, in lower case. -/
theorem map_asciiLower_ascii (op : ClientOp) :
    op.verb.map asciiLower ∈ [ascii "connect", ascii "sub", ascii "unsub", ascii "pub",
      ascii "hpub", ascii "ping", ascii "pong"] := by
  cases op <;> simp only [ClientOp.verb] <;> decide

/-- A verb in whatever case has no blank, CR or LF. -/
theorem Written.notMem_verb (w : Written) {b : UInt8} (hb : b ∈ [32, 9, 13, 10]) :
    b ∉ w.verb := by
  intro hmem
  have hlower : asciiLower b = b := by
    fin_cases hb <;> decide
  have hmap : b ∈ w.op.verb.map asciiLower :=
    w.verb_eq ▸ List.mem_map.mpr ⟨b, hmem, hlower⟩
  have hletters : ∀ v ∈ [ascii "connect", ascii "sub", ascii "unsub", ascii "pub",
      ascii "hpub", ascii "ping", ascii "pong"], ∀ b ∈ [32, 9, 13, 10], b ∉ v := by
    decide +kernel
  exact hletters _ (map_asciiLower_ascii w.op) b hb hmap

theorem Written.length_verb (w : Written) : w.verb.length = w.op.verb.length := by
  simpa using congrArg List.length w.verb_eq

section Verb

variable {verb rest : Bytes} (hverb : ∀ b ∈ verb, isBlank b = false)
  (hrest : ∀ b ∈ rest.head?, isBlank b = true)

include hverb hrest in
/-- The verb of a line ends before its first blank. -/
theorem findIdx_isBlank : (verb ++ rest).findIdx isBlank = verb.length := by
  rw [List.findIdx_append]
  have hnone : verb.findIdx isBlank = verb.length := List.findIdx_eq_length.mpr hverb
  rw [hnone, if_neg (lt_irrefl _)]
  cases rest with
  | nil => simp
  | cons b rest =>
      have hb : isBlank b = true := hrest b rfl
      simp [List.findIdx_cons, hb]

variable {v : Bytes} (hcase : verb.map asciiLower = v.map asciiLower)

include hcase in
/-- The first byte of a line decides which verbs are tried. -/
theorem head?_line (hv : v ≠ []) :
    (verb ++ rest).head?.map asciiLower = v.head?.map asciiLower := by
  have hne : verb.map asciiLower ≠ [] := by
    rw [hcase]
    simpa using hv
  rw [← List.head?_map, List.map_append, List.head?_append_of_ne_nil _ hne, hcase, List.head?_map]

include hcase in
theorem length_of_case : verb.length = v.length := by
  simpa using congrArg List.length hcase

include hcase in
/-- The verb of the line is recognised in any case. -/
theorem eqIgnore_line : eqIgnore ((verb ++ rest).take v.length) v = true := by
  rw [← length_of_case hcase, List.take_left]
  exact eqIgnore_iff.mpr hcase

include hcase in
/-- The line starts with its verb. -/
theorem starts_line : starts (verb ++ rest) v = true := by
  have hlen := length_of_case hcase
  rw [starts, Bool.and_eq_true, decide_eq_true_eq]
  refine ⟨?_, eqIgnore_line hcase⟩
  rw [List.length_append]
  omega

include hcase in
/-- The words of four letters with a P in front differ in their second one. -/
theorem not_starts_line {u : Bytes} (hu : 1 < u.length) (hv : 1 < v.length)
    (hne : getElem? (u.map asciiLower) 1 ≠ getElem? (v.map asciiLower) 1) :
    starts (verb ++ rest) u = false := by
  by_contra hstarts
  rw [Bool.not_eq_false, starts, Bool.and_eq_true] at hstarts
  have hmap := eqIgnore_iff.mp hstarts.2
  apply hne
  rw [← hmap, List.map_take, List.getElem?_take_of_lt hu, List.map_append, hcase,
    List.getElem?_append_left (by simpa using hv)]

variable (lim : Limits)

include hcase in
/-- PING, in any case. -/
theorem parseLine_ping (hv : v = ascii "PING") :
    parseLine (verb ++ rest) lim = .ok (.event .ping) := by
  subst hv
  have hhead : (verb ++ rest).head?.map asciiLower = some 112 :=
    (head?_line hcase (by decide)).trans (by decide)
  simp only [parseLine, hhead, starts_line hcase, if_true]

include hcase in
/-- PONG, in any case. -/
theorem parseLine_pong (hv : v = ascii "PONG") :
    parseLine (verb ++ rest) lim = .ok (.event .pong) := by
  subst hv
  have hhead : (verb ++ rest).head?.map asciiLower = some 112 :=
    (head?_line hcase (by decide)).trans (by decide)
  have hping : starts (verb ++ rest) (ascii "PING") = false :=
    not_starts_line hcase (by decide) (by decide) (by decide)
  simp only [parseLine, hhead, hping, starts_line hcase, if_true, Bool.false_eq_true, if_false]

include hcase in
/-- CONNECT, in any case. -/
theorem parseLine_connect (hv : v = ascii "CONNECT") :
    parseLine (verb ++ rest) lim = prefixLine (verb ++ rest) 7 .connect := by
  subst hv
  have hhead : (verb ++ rest).head?.map asciiLower = some 99 :=
    (head?_line hcase (by decide)).trans (by decide)
  have hlen : 7 ≤ (verb ++ rest).length := by
    rw [List.length_append, length_of_case hcase]
    exact Nat.le_add_right 7 _
  have heq : eqIgnore ((verb ++ rest).take 7) (ascii "CONNECT") = true := eqIgnore_line hcase
  simp only [parseLine, hhead, heq, hlen, decide_true, Bool.and_self, if_true]

include hverb hrest hcase

/-- The parts of a line with a verb of its own and arguments. -/
theorem line_parts {n : ℕ} (hn : v.length = n) (hne : rest ≠ []) :
    (verb ++ rest).findIdx isBlank = n ∧ (verb ++ rest).drop n = rest ∧ rest.isEmpty = false ∧
      eqIgnore ((verb ++ rest).take n) v = true := by
  subst hn
  have hlen := length_of_case hcase
  refine ⟨(findIdx_isBlank hverb hrest).trans hlen, ?_, by simpa using hne, eqIgnore_line hcase⟩
  rw [← hlen, List.drop_left]

/-- SUB with arguments goes to `parse_sub`. -/
theorem parseLine_sub (hv : v = ascii "SUB") (hne : rest ≠ []) :
    parseLine (verb ++ rest) lim = subLine (verb ++ rest) rest 3 := by
  subst hv
  have hhead : (verb ++ rest).head?.map asciiLower = some 115 :=
    (head?_line hcase (by decide)).trans (by decide)
  obtain ⟨hidx, hdrop, hempty, heq⟩ := line_parts hverb hrest hcase (show _ = 3 from rfl) hne
  simp only [parseLine, hhead, hidx, hdrop, hempty, heq, beq_self_eq_true, Bool.and_self, if_true,
    Bool.not_false, Bool.not_true, Bool.false_eq_true, if_false]

/-- UNSUB with arguments goes to `parse_unsub`. -/
theorem parseLine_unsub (hv : v = ascii "UNSUB") (hne : rest ≠ []) :
    parseLine (verb ++ rest) lim = unsubLine (verb ++ rest) rest 5 := by
  subst hv
  have hhead : (verb ++ rest).head?.map asciiLower = some 117 :=
    (head?_line hcase (by decide)).trans (by decide)
  obtain ⟨hidx, hdrop, hempty, heq⟩ := line_parts hverb hrest hcase (show _ = 5 from rfl) hne
  simp only [parseLine, hhead, hidx, hdrop, hempty, heq, beq_self_eq_true, Bool.and_self, if_true,
    Bool.not_false, Bool.not_true, Bool.false_eq_true, if_false]

/-- PUB with arguments goes to `parse_pub`. -/
theorem parseLine_pub (hv : v = ascii "PUB") (hne : rest ≠ []) :
    parseLine (verb ++ rest) lim = pubLine (verb ++ rest) rest true false lim := by
  subst hv
  have hhead : (verb ++ rest).head?.map asciiLower = some 112 :=
    (head?_line hcase (by decide)).trans (by decide)
  have hping : starts (verb ++ rest) (ascii "PING") = false :=
    not_starts_line hcase (by decide) (by decide) (by decide)
  have hpong : starts (verb ++ rest) (ascii "PONG") = false :=
    not_starts_line hcase (by decide) (by decide) (by decide)
  obtain ⟨hidx, hdrop, hempty, heq⟩ := line_parts hverb hrest hcase (show _ = 3 from rfl) hne
  simp only [parseLine, hhead, hping, hpong, hidx, hdrop, hempty, heq, beq_self_eq_true,
    Bool.and_self, if_true, Bool.not_false, Bool.false_eq_true, if_false]

/-- HPUB with arguments goes to `parse_pub`, with the flag for headers. -/
theorem parseLine_hpub (hv : v = ascii "HPUB") (hne : rest ≠ []) :
    parseLine (verb ++ rest) lim = pubLine (verb ++ rest) rest true true lim := by
  subst hv
  have hhead : (verb ++ rest).head?.map asciiLower = some 104 :=
    (head?_line hcase (by decide)).trans (by decide)
  obtain ⟨hidx, hdrop, hempty, heq⟩ := line_parts hverb hrest hcase (show _ = 4 from rfl) hne
  simp only [parseLine, hhead, hidx, hdrop, hempty, heq, beq_self_eq_true, Bool.and_self, if_true,
    Bool.not_false]

end Verb

/-! ## Reading a line -/

/-- What a control line asks the machine for. -/
def ClientOp.action : ClientOp → Action
  | .connect json => .event (.connect json)
  | .sub subject queue sid => .event (.subscribe subject queue sid)
  | .unsub sid max => .event (.unsubscribe sid (max.elim (-1) fun n => (n : ℤ)))
  | .pub subject reply body => .body subject reply 0 body.length false
  | .hpub subject reply hdr body => .body subject reply hdr body.length true
  | .ping => .event .ping
  | .pong => .event .pong

/-- The ranges are counted up to the limit. -/
theorem Args.Holds.count {line : Bytes} {args : Args} {toks : List Bytes}
    (h : args.Holds line toks) {n : ℕ} (hn : toks.length = n) (hle : n ≤ maxArgs) :
    args.count = n := by
  rw [Args.count, h.len, hn, min_eq_left hle]

/-- The tokens of a SUB line make up its event. -/
theorem subLine_of_holds {line rest subject sid : Bytes} {queue : Option Bytes} {n : ℕ}
    (h : (Args.of rest n).Holds line (subject :: (queue.toList ++ [sid]))) :
    subLine line rest n = .ok (.event (.subscribe subject queue sid)) := by
  cases queue with
  | none =>
      have hcount : (Args.of rest n).count = 2 := h.count rfl (by decide)
      simp only [subLine, hcount, h.slice 0 subject rfl, h.slice 1 sid rfl]
  | some q =>
      have hcount : (Args.of rest n).count = 3 := h.count rfl (by decide)
      simp only [subLine, hcount, h.slice 0 subject rfl, h.slice 1 q rfl, h.slice 2 sid rfl]

/-- The tokens of an UNSUB line make up its event. -/
theorem unsubLine_of_holds {line rest sid : Bytes} {max : Option ℕ} {n : ℕ}
    (h : (Args.of rest n).Holds line (sid :: (max.map pushU64).toList))
    (hmax : ∀ m ∈ max, m < 10 ^ 9) :
    unsubLine line rest n = .ok (.event (.unsubscribe sid (max.elim (-1) fun n => (n : ℤ)))) := by
  cases max with
  | none =>
      have hcount : (Args.of rest n).count = 1 := h.count rfl (by decide)
      simp only [unsubLine, hcount, h.slice 0 sid rfl, Option.elim_none]
  | some m =>
      have hcount : (Args.of rest n).count = 2 := h.count rfl (by decide)
      simp only [unsubLine, hcount, h.slice 0 sid rfl, h.slice 1 (pushU64 m) rfl,
        parseSize_pushU64 (hmax m rfl), Option.elim_some]

/-- Sizes within their bounds are accepted. -/
theorem pubSizes_of_le {subject : Bytes} {reply : Option Bytes} {hdr total : ℕ} {lim : Limits}
    (hpub : Bool) (hhdr : hdr ≤ total) (htotal : total ≤ lim.maxPayload) :
    pubSizes subject reply hdr total hpub lim = .ok (.body subject reply hdr total hpub) := by
  rw [pubSizes, if_neg (by omega), if_neg (by simpa using htotal)]
  rfl

/-- A publish line whose arguments have a shape of `pub_line`. -/
theorem pubLine_of_shape {line rest subject : Bytes} {reply : Option Bytes} {hdr total : ℕ}
    {hpub : Bool} {lim : Limits} {i j : Fin maxArgs} {r : Option (Fin maxArgs)}
    (hshape : pubShape hpub (Args.of rest (line.length - rest.length)).count = some (0, r, i, j))
    (hsubject : (Args.of rest (line.length - rest.length)).slice line 0 = subject)
    (hreply : r.map ((Args.of rest (line.length - rest.length)).slice line) = reply)
    (hhdr : (if hpub then parseSize ((Args.of rest (line.length - rest.length)).slice line i)
      else 0) = hdr)
    (htotal : parseSize ((Args.of rest (line.length - rest.length)).slice line j) = total)
    (hle : hdr ≤ total) (hmax : total ≤ lim.maxPayload) :
    pubLine line rest true hpub lim = .ok (.body subject reply hdr total hpub) := by
  simp only [pubLine, Bool.not_true, Bool.false_eq_true, if_false, hshape, hsubject, hreply, hhdr,
    htotal]
  exact pubSizes_of_le hpub hle hmax

/-- The tokens of a PUB line announce its body. -/
theorem pubLine_of_holds {line rest subject : Bytes} {reply : Option Bytes} {total : ℕ}
    {lim : Limits}
    (h : (Args.of rest (line.length - rest.length)).Holds line
      (subject :: (reply.toList ++ [pushU64 total])))
    (htotal : total ≤ lim.maxPayload) (hmax : lim.maxPayload < 10 ^ 9) :
    pubLine line rest true false lim = .ok (.body subject reply 0 total false) := by
  have hsize := parseSize_pushU64 (lt_of_le_of_lt htotal hmax)
  cases reply with
  | none =>
      refine pubLine_of_shape (r := none) (i := 1) (j := 1) ?_ (h.slice 0 _ rfl) rfl rfl ?_
        (Nat.zero_le _) htotal
      · rw [h.count (n := 2) rfl (by decide)]
        rfl
      · rw [h.slice 1 _ rfl, hsize]
  | some reply =>
      refine pubLine_of_shape (r := some 1) (i := 2) (j := 2) ?_ (h.slice 0 _ rfl) ?_ rfl ?_
        (Nat.zero_le _) htotal
      · rw [h.count (n := 3) rfl (by decide)]
        rfl
      · exact congrArg some (h.slice 1 _ rfl)
      · rw [h.slice 2 _ rfl, hsize]

/-- The tokens of an HPUB line announce its body. -/
theorem hpubLine_of_holds {line rest subject : Bytes} {reply : Option Bytes} {hdr total : ℕ}
    {lim : Limits}
    (h : (Args.of rest (line.length - rest.length)).Holds line
      (subject :: (reply.toList ++ [pushU64 hdr, pushU64 total])))
    (hhdr : hdr ≤ total) (htotal : total ≤ lim.maxPayload) (hmax : lim.maxPayload < 10 ^ 9) :
    pubLine line rest true true lim = .ok (.body subject reply hdr total true) := by
  have hsize := parseSize_pushU64 (lt_of_le_of_lt htotal hmax)
  have hhdrSize := parseSize_pushU64 (lt_of_le_of_lt (hhdr.trans htotal) hmax)
  cases reply with
  | none =>
      refine pubLine_of_shape (r := none) (i := 1) (j := 2) ?_ (h.slice 0 _ rfl) rfl ?_ ?_ hhdr
        htotal
      · rw [h.count (n := 3) rfl (by decide)]
        rfl
      · rw [if_pos rfl, h.slice 1 _ rfl, hhdrSize]
      · rw [h.slice 2 _ rfl, hsize]
  | some reply =>
      refine pubLine_of_shape (r := some 1) (i := 2) (j := 3) ?_ (h.slice 0 _ rfl) ?_ ?_ ?_ hhdr
        htotal
      · rw [h.count (n := 4) rfl (by decide)]
        rfl
      · exact congrArg some (h.slice 1 _ rfl)
      · rw [if_pos rfl, h.slice 2 _ rfl, hhdrSize]
      · rw [h.slice 3 _ rfl, hsize]

/-- The arguments of a valid operation other than CONNECT are tokens. -/
theorem ClientOp.Valid.isToken {lim : Limits} {op : ClientOp} (h : op.Valid lim)
    (hop : ∀ json, op ≠ .connect json) : ∀ t ∈ op.args, IsToken t := by
  intro t ht
  cases op with
  | connect json => exact absurd rfl (hop json)
  | sub subject queue sid =>
      obtain ⟨hsubject, hqueue, hsid⟩ := h
      simp only [args, List.mem_cons, List.mem_append, Option.mem_toList,
        List.not_mem_nil, or_false] at ht
      rcases ht with rfl | ht | rfl
      · exact hsubject
      · exact hqueue t ht
      · exact hsid
  | unsub sid max =>
      simp only [args, List.mem_cons, Option.mem_toList,
        Option.map_eq_some_iff] at ht
      rcases ht with rfl | ⟨n, -, rfl⟩
      · exact h.1
      · exact isToken_pushU64 n
  | pub subject reply body =>
      simp only [args, List.mem_cons, List.mem_append, Option.mem_toList,
        List.not_mem_nil, or_false] at ht
      rcases ht with rfl | ht | rfl
      · exact h.1
      · exact h.2.1 t ht
      · exact isToken_pushU64 _
  | hpub subject reply hdr body =>
      simp only [args, List.mem_cons, List.mem_append, Option.mem_toList,
        List.not_mem_nil, or_false] at ht
      rcases ht with rfl | ht | rfl | rfl
      · exact h.1
      · exact h.2.1 t ht
      · exact isToken_pushU64 _
      · exact isToken_pushU64 _
  | ping => cases ht
  | pong => cases ht

namespace Written

variable (w : Written)

/-- A verb has no blank. -/
theorem noBlank_verb : ∀ b ∈ w.verb, isBlank b = false := by
  intro b hb
  have h32 : b ≠ 32 := fun h => w.notMem_verb (by decide) (h ▸ hb)
  have h9 : b ≠ 9 := fun h => w.notMem_verb (by decide) (h ▸ hb)
  simp [isBlank, h32, h9]

/-- What follows the verb begins with a blank. -/
theorem head?_rest : ∀ b ∈ (fill w.gaps w.op.args ++ w.trail).head?, isBlank b = true :=
  head?_fill w.gap w.length_gaps w.blank_trail

/-- An operation with arguments has something behind its verb. -/
theorem rest_ne_nil (h : w.op.args ≠ []) : fill w.gaps w.op.args ++ w.trail ≠ [] := by
  obtain ⟨t, toks, hargs⟩ := List.exists_cons_of_ne_nil h
  obtain ⟨g, gaps, hgaps⟩ := List.exists_cons_of_length_eq_add_one
    (w.length_gaps.trans (congrArg List.length hargs))
  have hne := (w.gap g (hgaps ▸ List.mem_cons_self)).1
  rw [hargs, hgaps, fill_cons_cons]
  simp [hne]

/-- Splitting what follows the verb gives the arguments. -/
theorem holds (htok : ∀ t ∈ w.op.args, IsToken t) :
    (Args.of (fill w.gaps w.op.args ++ w.trail) w.verb.length).Holds w.line w.op.args :=
  Args.holds_of_fill w.gap (fun t ht => ⟨(htok t ht).ne_nil, (htok t ht).noBlank⟩) w.length_gaps
    w.blank_trail

/-- The argument of a `CONNECT` is found behind its gap. -/
theorem prefixLine_connect {lim : Limits} {json : Bytes} (hop : w.op = .connect json)
    (hvalid : w.op.Valid lim) : prefixLine w.line 7 .connect = .ok (.event (.connect json)) := by
  rw [hop] at hvalid
  obtain ⟨⟨b, hb, hblank⟩, -⟩ := hvalid
  obtain ⟨json', rfl⟩ : ∃ json', json = b :: json' := by
    cases json with
    | nil => cases hb
    | cons c json' => exact ⟨json', by rw [Option.some.inj hb]⟩
  obtain ⟨g, hgaps⟩ : ∃ g, w.gaps = [g] :=
    List.length_eq_one_iff.mp (w.length_gaps.trans (by rw [hop]; rfl))
  have hg : Blank g := (w.gap g (hgaps ▸ List.mem_cons_self)).2
  have hline : w.line = w.verb ++ (g ++ b :: json') := by
    rw [line, hop, hgaps, w.trail_connect _ hop]
    simp [fill, ClientOp.args]
  have hlen : w.verb.length = 7 := w.length_verb.trans (by rw [hop]; rfl)
  have hdrop : w.line.drop 7 = g ++ b :: json' := by
    rw [hline, ← hlen, List.drop_left]
  -- the JSON starts at the first byte that is not blank
  have harg : argAt (w.line.drop 7) = some g.length := by
    rw [argAt, hdrop, List.findIdx?_append]
    have hnone : g.findIdx? (fun b => !isBlank b) = none :=
      List.findIdx?_eq_none_iff.mpr fun c hc => by simp [hg c hc]
    simp [hnone, List.findIdx?_cons, hblank]
  simp only [prefixLine, harg]
  rw [← List.drop_drop, hdrop, List.drop_left]

/-- **The control line of an operation.** -/
theorem parseLine_line {lim : Limits} (hvalid : w.op.Valid lim) (hmax : lim.maxPayload < 10 ^ 9) :
    parseLine w.line lim = .ok w.op.action := by
  have hcase := w.verb_eq
  have hrest : w.op.args ≠ [] → fill w.gaps w.op.args ++ w.trail ≠ [] := w.rest_ne_nil
  have hbase : w.line.length - (fill w.gaps w.op.args ++ w.trail).length = w.verb.length := by
    rw [line, List.length_append, Nat.add_sub_cancel]
  have hholds : (∀ json, w.op ≠ .connect json) → _ := fun h => w.holds (hvalid.isToken h)
  cases hop : w.op with
  | connect json =>
      rw [line, parseLine_connect hcase lim (by rw [hop]; rfl), ← line]
      exact w.prefixLine_connect hop hvalid
  | sub subject queue sid =>
      rw [line, parseLine_sub w.noBlank_verb w.head?_rest hcase lim (by rw [hop]; rfl)
        (hrest (by simp [hop, ClientOp.args])), ← line]
      specialize hholds (by simp [hop])
      rw [w.length_verb, hop] at hholds
      rw [hop]
      exact subLine_of_holds hholds
  | unsub sid max =>
      rw [line, parseLine_unsub w.noBlank_verb w.head?_rest hcase lim (by rw [hop]; rfl)
        (hrest (by simp [hop, ClientOp.args])), ← line]
      specialize hholds (by simp [hop])
      rw [w.length_verb, hop] at hholds
      rw [hop] at hvalid ⊢
      exact unsubLine_of_holds hholds hvalid.2
  | pub subject reply body =>
      rw [line, parseLine_pub w.noBlank_verb w.head?_rest hcase lim (by rw [hop]; rfl)
        (hrest (by simp [hop, ClientOp.args])), ← line]
      specialize hholds (by simp [hop])
      rw [← hbase, hop] at hholds
      rw [hop] at hvalid ⊢
      exact pubLine_of_holds hholds hvalid.2.2 hmax
  | hpub subject reply hdr body =>
      rw [line, parseLine_hpub w.noBlank_verb w.head?_rest hcase lim (by rw [hop]; rfl)
        (hrest (by simp [hop, ClientOp.args])), ← line]
      specialize hholds (by simp [hop])
      rw [← hbase, hop] at hholds
      rw [hop] at hvalid ⊢
      exact hpubLine_of_holds hholds hvalid.2.2.1 hvalid.2.2.2 hmax
  | ping =>
      rw [line, parseLine_ping hcase lim (by rw [hop]; rfl)]
      rfl
  | pong =>
      rw [line, parseLine_pong hcase lim (by rw [hop]; rfl)]
      rfl

end Written

/-- Arguments behind gaps have no CRLF if none of them has one. -/
theorem findPair_fill {gaps toks : List Bytes} (hgap : ∀ g ∈ gaps, g ≠ [] ∧ Blank g)
    (htok : ∀ t ∈ toks, findPair 13 10 t = none) (hlen : gaps.length = toks.length)
    {trail : Bytes} (htrail : Blank trail) :
    findPair 13 10 (fill gaps toks ++ trail) = none := by
  have hblank : ∀ {g : Bytes}, Blank g → (13 : UInt8) ∉ g := by
    intro g hg hmem
    exact absurd (hg 13 hmem) (by decide)
  induction gaps generalizing toks with
  | nil =>
      rw [fill, List.zipWith_nil_left, List.flatten_nil, List.nil_append]
      exact findPair_eq_none_of_not_mem (hblank htrail)
  | cons g gaps ih =>
      obtain ⟨t, toks, rfl⟩ := List.exists_cons_of_length_eq_add_one hlen.symm
      obtain ⟨⟨-, hg⟩, hgap⟩ := List.forall_mem_cons.mp hgap
      obtain ⟨ht, htok⟩ := List.forall_mem_cons.mp htok
      have hlen : gaps.length = toks.length := Nat.succ.inj hlen
      rw [fill_cons_cons, List.append_assoc, List.append_assoc]
      refine findPair_append_eq_none (findPair_eq_none_of_not_mem (hblank hg))
        (findPair_append_eq_none ht (ih hgap htok hlen) fun _ hhead => ?_) fun hlast => ?_
      · -- a CR at the end of a token stands before a blank
        exact absurd (head?_fill hgap hlen htrail 10 hhead) (by decide)
      · exact absurd (List.mem_of_getLast? hlast) (hblank hg)

/-- No argument of a valid operation contains CR LF. -/
theorem ClientOp.Valid.noCrlf {lim : Limits} {op : ClientOp} (h : op.Valid lim) :
    ∀ t ∈ op.args, findPair 13 10 t = none := by
  by_cases hop : ∃ json, op = .connect json
  · obtain ⟨json, rfl⟩ := hop
    intro t ht
    rw [List.mem_singleton.mp ht]
    exact h.2
  · exact fun t ht => (h.isToken (fun json hjson => hop ⟨json, hjson⟩) t ht).noCrlf

namespace Written

variable (w : Written)

/-- A control line that was written contains no CR LF. -/
theorem findPair_line {lim : Limits} (hvalid : w.op.Valid lim) : findPair 13 10 w.line = none := by
  have hverb : (13 : UInt8) ∉ w.verb := w.notMem_verb (by decide)
  refine findPair_append_eq_none (findPair_eq_none_of_not_mem hverb)
    (findPair_fill w.gap hvalid.noCrlf w.length_gaps w.blank_trail) fun hlast => ?_
  exact absurd (List.mem_of_getLast? hlast) hverb

/-- A verb is not empty. -/
theorem verb_ne_nil : w.verb ≠ [] := by
  rw [← List.length_pos_iff, w.length_verb]
  cases w.op <;> simp only [ClientOp.verb] <;> decide

/-- A control line that was written does not begin with LF. -/
theorem head?_line_ne : w.line.head? ≠ some 10 := by
  intro hhead
  rw [line, List.head?_append_of_ne_nil _ w.verb_ne_nil] at hhead
  exact w.notMem_verb (by decide) (List.mem_of_mem_head? hhead)

/-- The turn on the control line of an operation. -/
theorem turn_line {lim : Limits} (hvalid : w.op.Valid lim) (hmax : lim.maxPayload < 10 ^ 9)
    (hline : w.line.length ≤ lim.maxControlLine) (after : Bytes) :
    turn lim .line (w.line ++ (crlf ++ after)) = afterLine after (.ok w.op.action) := by
  have hne : w.line ≠ [] := List.append_ne_nil_of_left_ne_nil w.verb_ne_nil _
  rw [← w.parseLine_line hvalid hmax]
  exact Proto.turn_line w.head?_line_ne hne (w.findPair_line hvalid) hline after

end Written

/-- The turn on a body that is there with its terminator. -/
theorem turn_body (lim : Limits) (subject : Bytes) (reply : Option Bytes) (hdr : ℕ) (hpub : Bool)
    (body after : Bytes) :
    turn lim (.body subject reply hdr body.length hpub .new) (body ++ crlf ++ after) =
      .next .line after [.publish subject reply hdr body.length hpub body] := by
  have hdrop : (body ++ crlf ++ after).drop body.length = 13 :: 10 :: after := by
    rw [List.append_assoc, List.drop_left]
    rfl
  have htake := assemble_takePieces_flatten body.length [body ++ crlf ++ after]
  rw [flatten_takePieces, List.flatten_singleton, List.append_assoc, List.take_left] at htake
  rw [bodyTurn_eq lim subject reply hdr body.length hpub .new (body ++ crlf ++ after) rfl]
  simp only [List.flatten_nil, List.length_nil, Nat.sub_zero, hdrop, List.nil_append]
  rw [List.append_assoc, htake, published]

/-- Feeding one operation and what follows it. -/
theorem Written.feedInto_bytes {lim : Limits} {w : Written} (hvalid : w.op.Valid lim)
    (hmax : lim.maxPayload < 10 ^ 9) (hline : w.line.length ≤ lim.maxControlLine)
    (after : Bytes) (out : List Event) :
    feedInto lim .line (w.bytes ++ after) out = feedInto lim .line after (out ++ w.op.events) := by
  have hturn := w.turn_line hvalid hmax hline (w.op.payload ++ after)
  rw [bytes, List.append_assoc, List.append_assoc]
  cases hop : w.op with
  | pub subject reply body =>
      rw [hop] at hturn
      refine (feedInto_of_next hturn out).trans
        ((feedInto_of_next (turn_body lim subject reply 0 false body after) _).trans ?_)
      simp [ClientOp.events]
  | hpub subject reply hdr body =>
      rw [hop] at hturn
      refine (feedInto_of_next hturn out).trans
        ((feedInto_of_next (turn_body lim subject reply hdr true body after) _).trans ?_)
      simp [ClientOp.events]
  | _ =>
      rw [hop] at hturn
      exact feedInto_of_next hturn out

/-- **Parse undoes encode.**  A fresh parser that gets the text of any operations in one
buffer emits their events, in order, and is left with nothing. -/
theorem feedInto_written {lim : Limits} (hmax : lim.maxPayload < 10 ^ 9) (ops : List Written)
    (hvalid : ∀ w ∈ ops, w.op.Valid lim)
    (hline : ∀ w ∈ ops, w.line.length ≤ lim.maxControlLine) :
    feedInto lim .line (ops.flatMap Written.bytes) [] =
      ⟨.line, [], ops.flatMap fun w => w.op.events, .ok ()⟩ := by
  suffices h : ∀ out, feedInto lim .line (ops.flatMap Written.bytes) out =
      ⟨.line, [], out ++ ops.flatMap fun w => w.op.events, .ok ()⟩ from h []
  induction ops with
  | nil =>
      intro out
      rw [List.flatMap_nil, List.flatMap_nil, feedInto_nil, List.append_nil]
  | cons w ops ih =>
      intro out
      obtain ⟨hw, hvalid⟩ := List.forall_mem_cons.mp hvalid
      obtain ⟨hlw, hline⟩ := List.forall_mem_cons.mp hline
      rw [List.flatMap_cons, Written.feedInto_bytes hw hmax hlw, ih hvalid hline,
        List.flatMap_cons, List.append_assoc]

/-- A body that is itself a line, a token that ends in a CR, and blanks at the end. -/
theorem feedInto_written_three :
    feedInto Limits.default .line
        (ascii "hPub a\t r  0 6\t\r\nPING\r\n\r\nSUB a q 1\r\r\nping \r\n") [] =
      ⟨.line, [],
        [.hpubAttempt .ok, .publish (ascii "a") (some (ascii "r")) 0 6 true (ascii "PING\r\n"),
          .subscribe (ascii "a") (some (ascii "q")) (ascii "1\r"), .ping], .ok ()⟩ :=
  feedInto_written (by decide)
    [⟨.hpub (ascii "a") (some (ascii "r")) 0 (ascii "PING\r\n"), ascii "hPub",
        [[32], [9, 32], [32, 32], [32]], [9], by decide, by decide, by decide +kernel,
        by decide +kernel, nofun⟩,
      ⟨.sub (ascii "a") (some (ascii "q")) (ascii "1\r"), ascii "SUB", [[32], [32], [32]], [],
        by decide, by decide, by decide +kernel, by decide +kernel, nofun⟩,
      ⟨.ping, ascii "ping", [], [32], by decide, by decide, by decide +kernel, by decide +kernel,
        nofun⟩]
    (by decide +kernel) (by decide +kernel)

end Proto

end NatsServer
