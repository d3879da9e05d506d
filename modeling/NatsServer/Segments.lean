/-
# Cutting the stream into segments

What the parser of `Proto.lean` makes of a byte stream that arrives in segments, against
what it makes of the whole stream in one call.  The control lines come out the same; a
publish body does not, when it is cut into an odd number of pieces from three on:
`Parts::push` leaves the last piece of an odd number in `first`, and `Parts::take_body`
puts `first` in front of the others (`takeBody_of_pieces`).

`Clean` is the condition on the segments under which nothing of this shows.  It is a
condition on the stream and its cuts alone: it finds the control lines and the bodies in
the stream with `findCrlf` and `parseLine`, and looks at the cuts inside them.  The
segmented parse equals the single one exactly when the segments are clean.
-/
import NatsServer.Proto

namespace NatsServer

namespace Proto

open Delimited

/-! ## Feeding segments -/

/-- The events emitted so far and the error that ended the parse, if any. -/
abbrev Outcome := List Event × Option ProtoError

/-- Events in front of an outcome. -/
def emit (evs : List Event) (r : Outcome) : Outcome := (evs ++ r.1, r.2)

@[simp] theorem emit_nil (r : Outcome) : emit [] r = r := rfl

/-- Feed the segments one after another to one parser: each is appended to the
unconsumed bytes before the call.  An error ends the connection. -/
def feedSegments (lim : Limits) : State → Bytes → List Bytes → Outcome
  | _, _, [] => ([], none)
  | st, src, seg :: segs =>
      let f := feedInto lim st (src ++ seg) []
      match f.res with
      | .error e => (f.out, some e)
      | .ok () => emit f.out (feedSegments lim f.state f.src segs)

/-- After these events the connection is always closed. -/
def stops : Event → Bool
  | .hpubAttempt .args => true
  | .hpubAttempt (.frame _) => true
  | _ => false

/-- What is compared: the events up to and including the first that stops the
connection, and the error if none does. -/
def observedOf (err : Option ProtoError) : List Event → Outcome
  | [] => ([], err)
  | ev :: evs => if stops ev then ([ev], none) else emit [ev] (observedOf err evs)

/-- `observedOf` on an outcome. -/
def observed (r : Outcome) : Outcome := observedOf r.2 r.1

/-- A whole run: a fresh parser, an empty buffer. -/
def parseSegments (lim : Limits) (segs : List Bytes) : Outcome :=
  observed (feedSegments lim .line [] segs)

@[simp] theorem observed_nil (err : Option ProtoError) : observed ([], err) = ([], err) := rfl

/-- An event that does not stop the connection is passed on. -/
theorem observed_emit_singleton {ev : Event} (h : stops ev = false) (r : Outcome) :
    observed (emit [ev] r) = emit [ev] (observed r) := by
  simp [observed, emit, observedOf, h]

/-- Nothing after an event that stops the connection is compared. -/
theorem observed_emit_stop {ev : Event} (h : stops ev = true) (r : Outcome) :
    observed (emit [ev] r) = ([ev], none) := by
  simp [observed, emit, observedOf, h]

/-- Outcomes with one event in front are the same if the events and the rest are. -/
theorem emit_singleton_inj {ev ev' : Event} {r r' : Outcome} :
    emit [ev] r = emit [ev'] r' ↔ ev = ev' ∧ r = r' := by
  simp [emit, Prod.ext_iff, and_assoc]

/-! ## One call, then the remaining segments -/

/-- The buffer `src` has just been extended: feed it, then the segments to come. -/
def resume (lim : Limits) (st : State) (src : Bytes) (segs : List Bytes) : Outcome :=
  let f := feedInto lim st src []
  match f.res with
  | .error e => (f.out, some e)
  | .ok () => emit f.out (feedSegments lim f.state f.src segs)

theorem feedSegments_cons (lim : Limits) (st : State) (src seg : Bytes) (segs : List Bytes) :
    feedSegments lim st src (seg :: segs) = resume lim st (src ++ seg) segs := rfl

/-- An error ends the reading. -/
theorem resume_of_error {lim : Limits} {st st' : State} {src src' : Bytes}
    {evs : List Event} {e : ProtoError} (h : turn lim st src = .ret st' src' evs (.error e))
    (segs : List Bytes) : resume lim st src segs = (evs, some e) := by
  simp [resume, feedInto_of_ret h]

/-- A turn that returns waits for the next segment. -/
theorem resume_of_ret {lim : Limits} {st st' : State} {src src' : Bytes}
    {evs : List Event} (h : turn lim st src = .ret st' src' evs (.ok ()))
    (segs : List Bytes) :
    resume lim st src segs = emit evs (feedSegments lim st' src' segs) := by
  simp [resume, feedInto_of_ret h]

/-- A turn that goes on reads the same segment. -/
theorem resume_of_next {lim : Limits} {st st' : State} {src src' : Bytes}
    {evs : List Event} (h : turn lim st src = .next st' src' evs) (segs : List Bytes) :
    resume lim st src segs = emit evs (resume lim st' src' segs) := by
  simp only [resume]
  rw [feedInto_of_next h, feedInto_out]
  cases (feedInto lim st' src' []).res <;> simp [emit]

/-- A stream at the start of a control line, as the chunks in which it arrives. -/
def resumeChunks (lim : Limits) : List Bytes → Outcome
  | [] => ([], none)
  | src :: segs => resume lim .line src segs

/-! ## The pieces of a body -/

/-- What `Parts` holds after the pieces `ps`, oldest first: the last one of an odd number
stays in `first`, all others are in `rest`. -/
structure PartsOf (ps : List Bytes) (p : Parts) : Prop where
  first : p.first = if ps.length % 2 = 1 then ps.getLast? else none
  rest : p.rest = if ps.length % 2 = 1 then ps.dropLast else ps
  got : p.got = ps.flatten.length

theorem PartsOf.new : PartsOf [] Parts.new := ⟨rfl, rfl, rfl⟩

theorem PartsOf.hoist {ps : List Bytes} {p : Parts} (h : PartsOf ps p) :
    PartsOf ps p.hoist := ⟨h.first, h.rest, h.got⟩

/-- One more part. -/
theorem PartsOf.push {ps : List Bytes} {p : Parts} (h : PartsOf ps p) (b : Bytes) :
    PartsOf (ps ++ [b]) (p.push b) := by
  have hlen : (ps ++ [b]).length = ps.length + 1 := by simp
  have hgot : (ps ++ [b]).flatten.length = ps.flatten.length + b.length := by simp
  by_cases hodd : ps.length % 2 = 1
  · have hne : ps ≠ [] := by
      rintro rfl
      simp at hodd
    have hfirst := h.first
    rw [if_pos hodd, List.getLast?_eq_some_getLast hne] at hfirst
    have hrest := h.rest
    rw [if_pos hodd] at hrest
    have heven : ¬ (ps ++ [b]).length % 2 = 1 := by omega
    -- the piece kept in `first` moves to `rest`, the new one goes behind it
    refine ⟨?_, ?_, ?_⟩
    · rw [if_neg heven, Parts.push, hfirst]
    · rw [if_neg heven, Parts.push, hfirst, hrest]
      show ps.dropLast ++ [ps.getLast hne, b] = ps ++ [b]
      rw [show [ps.getLast hne, b] = [ps.getLast hne] ++ [b] from rfl, ← List.append_assoc,
        List.dropLast_append_getLast hne]
    · rw [Parts.push, hfirst, hgot]
      exact congrArg (· + b.length) h.got
  · have hfirst := h.first
    rw [if_neg hodd] at hfirst
    have hrest := h.rest
    rw [if_neg hodd] at hrest
    have hodd' : (ps ++ [b]).length % 2 = 1 := by omega
    refine ⟨?_, ?_, ?_⟩
    · rw [if_pos hodd', Parts.push, hfirst]
      simp
    · rw [if_pos hodd', Parts.push, hfirst, hrest]
      simp
    · rw [Parts.push, hfirst, hgot]
      exact congrArg (· + b.length) h.got

/-- The bytes `take_body` makes of the pieces `ps`. -/
def assemble (ps : List Bytes) : Bytes :=
  if ps.length % 2 = 1 then ps.getLast?.getD [] ++ ps.dropLast.flatten else ps.flatten

/-- **The body, from its pieces.**  An odd number of pieces comes out with the last one in
front. -/
theorem takeBody_of_pieces {ps : List Bytes} {p : Parts} (h : PartsOf ps p) :
    p.takeBody = assemble ps := by
  have hfirst := h.first
  have hrest := h.rest
  unfold assemble
  by_cases hodd : ps.length % 2 = 1
  · rw [if_pos hodd] at hfirst hrest ⊢
    have hne : ps ≠ [] := by
      rintro rfl
      simp at hodd
    rw [List.getLast?_eq_some_getLast hne] at hfirst ⊢
    unfold Parts.takeBody
    rw [hfirst, hrest]
    cases ps.dropLast <;> simp
  · rw [if_neg hodd] at hfirst hrest ⊢
    unfold Parts.takeBody
    rw [hfirst, hrest]
    cases ps <;> simp

/-- The pieces come out in order: fewer than three, or an even number, or a body that
moving its last piece to the front does not change. -/
def InOrder (ps : List Bytes) : Prop :=
  ps.length < 3 ∨ ps.length % 2 = 0 ∨ ps.getLast?.getD [] ++ ps.dropLast.flatten = ps.flatten

instance (ps : List Bytes) : Decidable (InOrder ps) :=
  inferInstanceAs (Decidable (_ ∨ _ ∨ _))

/-- A body in one part is what it should be. -/
theorem assemble_of_length_le_one {ps : List Bytes} (h : ps.length ≤ 1) :
    assemble ps = ps.flatten := by
  match ps with
  | [] => rfl
  | [b] => simp [assemble]
  | _ :: _ :: _ => simp at h

/-- A body in several parts is right exactly if they are put together in order. -/
theorem assemble_eq_flatten_iff (ps : List Bytes) :
    assemble ps = ps.flatten ↔ InOrder ps := by
  by_cases hodd : ps.length % 2 = 1
  · by_cases hlt : ps.length < 3
    · exact ⟨fun _ => Or.inl hlt, fun _ => assemble_of_length_le_one (by omega)⟩
    · rw [assemble, if_pos hodd, InOrder]
      constructor
      · exact fun h => Or.inr (Or.inr h)
      · rintro (h | h | h)
        · exact absurd h hlt
        · omega
        · exact h
  · rw [assemble, if_neg hodd]
    exact ⟨fun _ => Or.inr (Or.inl (by omega)), fun _ => rfl⟩

/-! ## A body and what follows it -/

/-- A turn pushes what the buffer has of the body, if anything. -/
theorem PartsOf.takeInto {ps : List Bytes} {p : Parts} (h : PartsOf ps p) (need : ℕ)
    (src : Bytes) :
    PartsOf (ps ++ takePieces (need - ps.flatten.length) [src]) (takeInto need p src) := by
  have hmin : src.take (min (need - ps.flatten.length) src.length)
      = src.take (need - ps.flatten.length) := by
    rw [List.take_eq_take_iff]
    omega
  simp only [Proto.takeInto, h.got, hmin, takePieces]
  by_cases htake : (src.take (need - ps.flatten.length)).isEmpty
  · have hnil := List.take_eq_nil_iff.mp (List.isEmpty_iff.mp htake)
    have hzero : ¬ min (need - ps.flatten.length) src.length > 0 := by
      rcases hnil with h0 | rfl
      · omega
      · simp
    rw [if_pos htake, if_neg hzero, List.append_nil]
    exact h
  · have hpos : min (need - ps.flatten.length) src.length > 0 := by
      rw [List.isEmpty_iff, List.take_eq_nil_iff, not_or] at htake
      have := List.length_pos_iff.mpr htake.2
      omega
    rw [if_neg htake, if_pos hpos]
    exact h.push _

/-- How a body that does not end in its terminator comes out: still waiting, or a frame
error. -/
def bodyTail (hpub : Bool) : Bytes → Outcome
  | [] => ([], none)
  | [13] => ([], none)
  | _ => if hpub then ([.hpubAttempt (.frame unknownOp)], none)
      else ([], some (.fatal unknownOp))

/-- What may follow a body in the buffer: nothing yet, half a terminator, a terminator, or
bytes that can no longer become one. -/
theorem terminator_cases (v : Bytes) :
    (v = [] ∨ v = [13]) ∨ (∃ rest, v = 13 :: 10 :: rest) ∨
      (v ≠ [] ∧ v ≠ [13] ∧ ∀ t, (v ++ t).take 2 ≠ [13, 10]) := by
  match v with
  | [] => exact Or.inl (Or.inl rfl)
  | [a] =>
      by_cases ha : a = 13
      · exact Or.inl (Or.inr (by rw [ha]))
      · refine Or.inr (Or.inr ⟨by simp, by simpa using ha, fun t => ?_⟩)
        simp [ha]
  | a :: b :: rest =>
      by_cases hab : a = 13 ∧ b = 10
      · exact Or.inr (Or.inl ⟨rest, by rw [hab.1, hab.2]⟩)
      · refine Or.inr (Or.inr ⟨by simp, by simp, fun t => ?_⟩)
        simpa using hab

/-- Bytes that are neither a wait nor a terminator are a frame error. -/
theorem bodyTail_of_bad {hpub : Bool} {v : Bytes} (h0 : v ≠ []) (h1 : v ≠ [13]) :
    bodyTail hpub v = if hpub then ([.hpubAttempt (.frame unknownOp)], none)
      else ([], some (.fatal unknownOp)) := by
  unfold bodyTail
  split
  · exact absurd rfl h0
  · exact absurd rfl h1
  · rfl

section Body

variable (lim : Limits) (subject : Bytes) (reply : Option Bytes) (hdr need : ℕ) (hpub : Bool)

/-- The event of a complete body. -/
def published (body : Bytes) : Event := .publish subject reply hdr body.length hpub body

/-- How the body state comes out when the pieces `ps` have been taken, `rem` bytes are
missing and the chunks `cs` are still to come. -/
def bodyResult (ps : List Bytes) (rem : ℕ) (cs : List Bytes) : Outcome :=
  if (cs.flatten.drop rem).take 2 = [13, 10] then
    emit [published subject reply hdr hpub (assemble (ps ++ takePieces rem cs))]
      (observed (resumeChunks lim (dropFlat (rem + 2) cs)))
  else bodyTail hpub (cs.flatten.drop rem)

/-- The body turn, by what follows the body in the buffer. -/
theorem bodyTurn_eq {ps : List Bytes} {parts : Parts} (h : PartsOf ps parts) (src : Bytes)
    {rem : ℕ} (hrem : need - ps.flatten.length = rem) :
    turn lim (.body subject reply hdr need hpub parts) src =
      match src.drop rem with
      | 13 :: 10 :: rest =>
          .next .line rest [published subject reply hdr hpub
            (assemble (ps ++ takePieces rem [src]))]
      | [] => .ret (.body subject reply hdr need hpub (takeInto need parts src).hoist)
          (src.drop rem) [] (.ok ())
      | [13] => .ret (.body subject reply hdr need hpub (takeInto need parts src).hoist)
          (src.drop rem) [] (.ok ())
      | _ => .ret (.body subject reply hdr need hpub (takeInto need parts src))
          (src.drop rem) (hpubFrameError hpub).1 (hpubFrameError hpub).2 := by
  have hdrop : src.drop (min (need - parts.got) src.length) = src.drop rem := by
    rw [h.got, hrem]
    by_cases hle : rem ≤ src.length
    · rw [min_eq_left hle]
    · rw [min_eq_right (by omega), List.drop_length, List.drop_of_length_le (by omega)]
  have hparts := h.takeInto need src
  rw [hrem] at hparts
  have hgot := hparts.got
  rw [List.flatten_append, flatten_takePieces, List.length_append, List.length_take,
    List.flatten_singleton] at hgot
  simp only [turn, bodyTurn, hdrop, takeBody_of_pieces hparts, published]
  by_cases hlt : (takeInto need parts src).got < need
  · -- the body is not complete, so nothing of the buffer is left
    have hnil : src.drop rem = [] := List.drop_of_length_le (by omega)
    rw [if_pos hlt, hnil]
  · rw [if_neg hlt]
    generalize src.drop rem = v
    split
    · rfl
    · rfl
    · split <;> simp_all
    · rfl
    · split <;> simp_all

variable {need}

/-- A body whose terminator has not arrived in full waits for the next segment. -/
theorem resume_body_wait {ps : List Bytes} {parts : Parts} (h : PartsOf ps parts)
    (src : Bytes) (segs : List Bytes) {rem : ℕ} (hrem : need - ps.flatten.length = rem)
    (hw : src.drop rem = [] ∨ src.drop rem = [13]) :
    ∃ parts', PartsOf (ps ++ takePieces rem [src]) parts' ∧
      resume lim (.body subject reply hdr need hpub parts) src segs =
        feedSegments lim (.body subject reply hdr need hpub parts') (src.drop rem) segs := by
  refine ⟨(takeInto need parts src).hoist, hrem ▸ (h.takeInto need src).hoist, ?_⟩
  have hturn := bodyTurn_eq lim subject reply hdr need hpub h src hrem
  rcases hw with hw | hw
  all_goals
    rw [hw] at hturn ⊢
    rw [resume_of_ret hturn, emit_nil]

/-- The buffer holds the terminator: the body is assembled, the line state resumes. -/
theorem observed_resume_body_terminated {ps : List Bytes} {parts : Parts}
    (h : PartsOf ps parts) (src : Bytes) (segs : List Bytes) {rem : ℕ} {rest : Bytes}
    (hrem : need - ps.flatten.length = rem) (hv : src.drop rem = 13 :: 10 :: rest) :
    observed (resume lim (.body subject reply hdr need hpub parts) src segs) =
      bodyResult lim subject reply hdr hpub ps rem (src :: segs) := by
  have hlen := congrArg List.length hv
  simp only [List.length_drop, List.length_cons] at hlen
  have hflat : (src :: segs).flatten.drop rem = 13 :: 10 :: (rest ++ segs.flatten) := by
    rw [List.flatten_cons, List.drop_append_of_le_length (by omega), hv]
    rfl
  have hpieces : takePieces rem (src :: segs) = takePieces rem [src] := by
    have hzero : rem - src.length = 0 := by omega
    rw [takePieces_cons, hzero, takePieces_zero, List.append_nil]
  have hrest : src.drop (rem + 2) = rest := by
    rw [← List.drop_drop, hv]
    rfl
  have hturn := bodyTurn_eq lim subject reply hdr need hpub h src hrem
  rw [hv] at hturn
  rw [resume_of_next hturn, observed_emit_singleton rfl, bodyResult, hflat,
    if_pos (by simp), hpieces, dropFlat_cons_of_le (by omega), hrest]
  rfl

/-- The buffer holds bytes that are no terminator. -/
theorem observed_resume_body_bad {ps : List Bytes} {parts : Parts}
    (h : PartsOf ps parts) (src : Bytes) (segs : List Bytes) {rem : ℕ}
    (hrem : need - ps.flatten.length = rem) (h0 : src.drop rem ≠ [])
    (h1 : src.drop rem ≠ [13]) (hbad : ∀ t, (src.drop rem ++ t).take 2 ≠ [13, 10]) :
    observed (resume lim (.body subject reply hdr need hpub parts) src segs) =
      bodyResult lim subject reply hdr hpub ps rem (src :: segs) := by
  have hflat : (src :: segs).flatten.drop rem
      = src.drop rem ++ segs.flatten.drop (rem - src.length) := by
    rw [List.flatten_cons, List.drop_append]
  have hturn := bodyTurn_eq lim subject reply hdr need hpub h src hrem
  have hturn' : turn lim (.body subject reply hdr need hpub parts) src =
      .ret (.body subject reply hdr need hpub (takeInto need parts src)) (src.drop rem)
        (hpubFrameError hpub).1 (hpubFrameError hpub).2 := by
    rw [hturn]
    split
    · rename_i hv
      exact absurd (by simp [hv]) (hbad [])
    · rename_i hv
      exact absurd hv h0
    · rename_i hv
      exact absurd hv h1
    · rfl
  have htail : src.drop rem ++ segs.flatten.drop (rem - src.length) ≠ [13] := by
    rw [Ne, List.append_eq_singleton_iff]
    rintro (⟨h, -⟩ | ⟨h, -⟩)
    · exact h0 h
    · exact h1 h
  rw [bodyResult, hflat, if_neg (hbad _), bodyTail_of_bad (by simp [h0]) htail]
  cases hpub with
  | true => rw [resume_of_ret hturn', if_pos rfl]; exact observed_emit_stop rfl _
  | false => rw [resume_of_error hturn', if_neg (by simp)]; rfl

/-- Reading one more segment does not change how the body comes out. -/
theorem bodyResult_cons_cons (ps : List Bytes) {rem : ℕ} {src : Bytes}
    (hlen : src.length < rem + 2) (c : Bytes) (cs : List Bytes) :
    bodyResult lim subject reply hdr hpub ps rem (src :: c :: cs) =
      bodyResult lim subject reply hdr hpub (ps ++ takePieces rem [src]) (rem - src.length)
        ((src.drop rem ++ c) :: cs) := by
  have hflat : ((src.drop rem ++ c) :: cs).flatten.drop (rem - src.length)
      = (src :: c :: cs).flatten.drop rem := by
    rw [List.flatten_cons, List.append_assoc, drop_sub_drop_append, List.flatten_cons,
      List.flatten_cons]
  rw [bodyResult, bodyResult, hflat, takePieces_drop_append, dropFlat_drop_append hlen,
    List.append_assoc, ← takePieces_cons]

/-- **The body state.**  However the stream is cut, the outcome is that of the body as
`take_body` assembles it from the pieces in which it arrives. -/
theorem observed_resume_body {ps : List Bytes} {parts : Parts} (h : PartsOf ps parts)
    (src : Bytes) (segs : List Bytes) {rem : ℕ} (hrem : need - ps.flatten.length = rem) :
    observed (resume lim (.body subject reply hdr need hpub parts) src segs) =
      bodyResult lim subject reply hdr hpub ps rem (src :: segs) := by
  -- on the segments: either the buffer decides, or one more segment is read
  induction segs generalizing src ps parts rem with
  | nil =>
      rcases terminator_cases (src.drop rem) with hw | ⟨rest, hv⟩ | ⟨h0, h1, hbad⟩
      · obtain ⟨parts', -, hresume⟩ :=
          resume_body_wait lim subject reply hdr hpub h src [] hrem hw
        rw [hresume, bodyResult, List.flatten_singleton]
        rcases hw with hw | hw <;> rw [hw] <;> rfl
      · exact observed_resume_body_terminated lim subject reply hdr hpub h src [] hrem hv
      · exact observed_resume_body_bad lim subject reply hdr hpub h src [] hrem h0 h1 hbad
  | cons c cs ih =>
      rcases terminator_cases (src.drop rem) with hw | ⟨rest, hv⟩ | ⟨h0, h1, hbad⟩
      · obtain ⟨parts', hparts', hresume⟩ :=
          resume_body_wait lim subject reply hdr hpub h src (c :: cs) hrem hw
        have hlen : src.length < rem + 2 := by
          rcases hw with hw | hw <;> have := congrArg List.length hw <;>
            simp only [List.length_drop, List.length_cons, List.length_nil] at this <;> omega
        have hrem' : need - (ps ++ takePieces rem [src]).flatten.length = rem - src.length := by
          rw [List.flatten_append, flatten_takePieces, List.length_append, List.length_take,
            List.flatten_singleton]
          omega
        rw [hresume, feedSegments_cons, ih hparts' _ hrem',
          ← bodyResult_cons_cons lim subject reply hdr hpub ps hlen]
      · exact observed_resume_body_terminated lim subject reply hdr hpub h src (c :: cs) hrem hv
      · exact observed_resume_body_bad lim subject reply hdr hpub h src (c :: cs) hrem h0 h1 hbad

end Body

/-! ## Clean segments -/

/-- What a stream at the start of a control line begins with. -/
inductive Head where
  /-- No control line within the limit. -/
  | none
  /-- A control line behind which nothing more is parsed. -/
  | last (at_ : ℕ)
  /-- A control line that is a whole operation. -/
  | event (at_ : ℕ)
  /-- A `PUB` or `HPUB` line with its complete body. -/
  | publish (at_ need : ℕ)
  deriving DecidableEq

/-- The head that a control line ending at `at_` makes. -/
def lineHead (lim : Limits) (w : Bytes) (at_ : ℕ) : Head :=
  match parseLine (w.take at_) lim with
  | .error _ => .last at_
  | .ok (.event ev) => if ev = .hpubAttempt .args then .last at_ else .event at_
  | .ok (.body _ _ _ need _) =>
      if ((w.drop (at_ + 2)).drop need).take 2 = [13, 10] then .publish at_ need
      else .last at_

/-- The head of a stream: the first CRLF, the control line before it and, for a publish,
the body it declares. -/
def headOf (lim : Limits) (w : Bytes) : Head :=
  if w.head? = some 10 then .none
  else match findCrlf w with
    | none => .none
    | some at_ => if at_ > lim.maxControlLine then .none else lineHead lim w at_

/-- Where the control line of a head ends. -/
def Head.lineAt : Head → Option ℕ
  | .none => Option.none
  | .last at_ => some at_
  | .event at_ => some at_
  | .publish at_ _ => some at_

theorem lineAt_lineHead (lim : Limits) (w : Bytes) (at_ : ℕ) :
    (lineHead lim w at_).lineAt = some at_ := by
  unfold lineHead
  split
  · rfl
  · split_ifs <;> rfl
  · split_ifs <;> rfl

/-- The line of a head is the first one of the stream, and it is within the limit. -/
theorem findCrlf_of_headOf {lim : Limits} {w : Bytes} {at_ : ℕ}
    (h : (headOf lim w).lineAt = some at_) :
    findCrlf w = some at_ ∧ at_ ≤ lim.maxControlLine := by
  unfold headOf at h
  split at h
  · cases h
  · split at h
    · cases h
    · rename_i n hn
      split at h
      · cases h
      · rw [lineAt_lineHead] at h
        cases h
        exact ⟨hn, by omega⟩

/-- The line that is found ends within the bytes. -/
theorem add_two_le_of_headOf {lim : Limits} {w : Bytes} {at_ : ℕ}
    (h : (headOf lim w).lineAt = some at_) : at_ + 2 ≤ w.length :=
  findPair_add_two_le (findCrlf_eq w ▸ (findCrlf_of_headOf h).1)

/-- **Clean segments.**  Seen from the start of a control line: no cut falls inside a
control line of the permitted length when more of it than the guard allows has arrived,
and the pieces of every complete body come out in order. -/
def Clean (lim : Limits) (cs : List Bytes) : Prop :=
  match h : headOf lim cs.flatten with
  | .none => True
  | .last at_ => NoCutIn lim.lineGuard (at_ + 2) cs
  | .event at_ =>
      have : at_ + 2 ≤ cs.flatten.length := add_two_le_of_headOf (by rw [h]; rfl)
      NoCutIn lim.lineGuard (at_ + 2) cs ∧ Clean lim (dropFlat (at_ + 2) cs)
  | .publish at_ need =>
      have : at_ + 2 ≤ cs.flatten.length := add_two_le_of_headOf (by rw [h]; rfl)
      NoCutIn lim.lineGuard (at_ + 2) cs ∧
        InOrder (takePieces need (dropFlat (at_ + 2) cs)) ∧
        Clean lim (dropFlat (need + 2) (dropFlat (at_ + 2) cs))
termination_by cs.flatten.length
decreasing_by
  · rw [flatten_dropFlat, List.length_drop]
    omega
  · rw [flatten_dropFlat, flatten_dropFlat, List.length_drop, List.length_drop]
    omega

/-- What a head asks of the chunks behind its control line, when `P` is asked of every
stream at the start of a line. -/
def Head.Rest (P : List Bytes → Prop) (cs : List Bytes) : Head → Prop
  | .none => True
  | .last _ => True
  | .event at_ => P (dropFlat (at_ + 2) cs)
  | .publish at_ need => InOrder (takePieces need (dropFlat (at_ + 2) cs)) ∧
      P (dropFlat (need + 2) (dropFlat (at_ + 2) cs))

/-- Without a line there is nothing to cut. -/
theorem clean_of_none {lim : Limits} {cs : List Bytes} (h : headOf lim cs.flatten = .none) :
    Clean lim cs := by
  rw [Clean]
  split <;> rename_i h'
  · trivial
  all_goals
    rw [h] at h'
    cases h'

/-- Segments are clean if no cut is harmful here and none is further on. -/
theorem clean_iff {lim : Limits} {cs : List Bytes} {at_ : ℕ}
    (h : (headOf lim cs.flatten).lineAt = some at_) :
    Clean lim cs ↔
      NoCutIn lim.lineGuard (at_ + 2) cs ∧ (headOf lim cs.flatten).Rest (Clean lim) cs := by
  rw [Clean]
  split <;> rename_i h'
  · rw [h'] at h
    cases h
  all_goals
    have hrest := congrArg (Head.Rest (Clean lim) cs) h'
    rw [h'] at h
    cases h
    rw [hrest]
    simp only [Head.Rest, and_true]

/-- Without a line there is no head. -/
theorem head_eq_none_of_lineAt {h : Head} (hat : h.lineAt = none) : h = .none := by
  cases h with
  | none => rfl
  | last _ => cases hat
  | event _ => cases hat
  | publish _ _ => cases hat

/-- A cut inside an unfinished control line that the guard lets pass may be forgotten. -/
theorem clean_cons_cons_iff {lim : Limits} {src c : Bytes} {cs : List Bytes}
    (hnone : findCrlf src = none) (hguard : src.length ≤ lim.lineGuard) :
    Clean lim (src :: c :: cs) ↔ Clean lim ((src ++ c) :: cs) := by
  have hflat : (src :: c :: cs).flatten = ((src ++ c) :: cs).flatten := by simp
  cases hat : (headOf lim (src :: c :: cs).flatten).lineAt with
  | none =>
      have hhead := head_eq_none_of_lineAt hat
      exact iff_of_true (clean_of_none hhead) (clean_of_none (hflat ▸ hhead))
  | some at_ =>
      have hlt : src.length < at_ + 2 := by
        have hfind := (findCrlf_of_headOf hat).1
        rw [findCrlf_eq, List.flatten_cons] at hfind
        exact length_lt_of_findPair_append (findCrlf_eq src ▸ hnone) hfind
      rw [clean_iff hat, clean_iff (hflat ▸ hat), noCutIn_cons_cons_iff hguard, ← hflat]
      -- the line ends behind the cut, so the chunks behind it are the same
      cases hhead : headOf lim (src :: c :: cs).flatten with
      | none => rfl
      | last n => rfl
      | event n =>
          rw [hhead] at hat
          cases hat
          simp only [Head.Rest, dropFlat_cons_cons hlt]
      | publish n need =>
          rw [hhead] at hat
          cases hat
          simp only [Head.Rest, dropFlat_cons_cons hlt]

/-! ## A control line and what follows it -/

/-- How a stream comes out whose first control line ends at `at_`, within the limit. -/
def lineResult (lim : Limits) (at_ : ℕ) (cs : List Bytes) : Outcome :=
  match parseLine (cs.flatten.take at_) lim with
  | .error e => ([], some e)
  | .ok (.event ev) =>
      if ev = .hpubAttempt .args then ([ev], none)
      else emit [ev] (observed (resumeChunks lim (dropFlat (at_ + 2) cs)))
  | .ok (.body subject reply hdr need hpub) =>
      emit (if hpub then [.hpubAttempt .ok] else [])
        (bodyResult lim subject reply hdr hpub [] need (dropFlat (at_ + 2) cs))

/-- The only event of a control line that stops the connection. -/
theorem stops_of_parseLine {lim : Limits} {line : Bytes} {ev : Event}
    (h : parseLine line lim = .ok (.event ev)) (hne : ev ≠ .hpubAttempt .args) :
    stops ev = false := by
  have hout := parseLine_outcome line lim
  rw [h] at hout
  cases ev with
  | hpubAttempt o =>
      have : o = .args := hout
      exact absurd (congrArg Event.hpubAttempt this) hne
  | _ => rfl

theorem observed_emit_attempt (hpub : Bool) (r : Outcome) :
    observed (emit (if hpub then [.hpubAttempt .ok] else []) r)
      = emit (if hpub then [.hpubAttempt .ok] else []) (observed r) := by
  cases hpub with
  | true => exact observed_emit_singleton rfl r
  | false => rfl

/-- The buffer holds the whole control line: however the stream goes on, the outcome is
that of the line and of the chunks behind it. -/
theorem observed_resume_line {lim : Limits} {src : Bytes} {at_ : ℕ}
    (hlf : src.head? ≠ some 10) (hfind : findCrlf src = some at_)
    (hle : at_ ≤ lim.maxControlLine) (segs : List Bytes) :
    observed (resume lim .line src segs) = lineResult lim at_ (src :: segs) := by
  have hlen : at_ + 2 ≤ src.length := findPair_add_two_le (findCrlf_eq src ▸ hfind)
  have htake : (src :: segs).flatten.take at_ = src.take at_ := by
    rw [List.flatten_cons, List.take_append_of_le_length (by omega)]
  have hturn : turn lim .line src = completeLine lim src at_ := by
    simp only [turn, lineTurn, hfind, if_neg hlf, if_neg (Nat.not_lt.mpr hle)]
  rw [lineResult, htake, dropFlat_cons_of_le hlen]
  -- the line lies in the first chunk, so what it says does not depend on the others
  unfold completeLine at hturn
  cases hparse : parseLine (src.take at_) lim with
  | error e =>
      rw [hparse] at hturn
      rw [resume_of_error hturn]
      rfl
  | ok act =>
      rw [hparse] at hturn
      cases act with
      | event ev =>
          simp only at hturn ⊢
          by_cases hev : ev = .hpubAttempt .args
          · rw [if_pos hev] at hturn ⊢
            rw [resume_of_ret hturn, observed_emit_stop (by rw [hev]; rfl)]
          · rw [if_neg hev] at hturn ⊢
            rw [resume_of_next hturn, observed_emit_singleton (stops_of_parseLine hparse hev)]
            rfl
      | body subject reply hdr need hpub =>
          rw [resume_of_next hturn, observed_emit_attempt,
            observed_resume_body lim subject reply hdr hpub PartsOf.new _ segs (Nat.sub_zero need)]

/-- A body in one chunk is taken in at most one piece. -/
theorem assemble_takePieces_flatten (n : ℕ) (cs : List Bytes) :
    assemble (takePieces n [cs.flatten]) = (takePieces n cs).flatten := by
  rw [assemble_of_length_le_one (length_takePieces_singleton_le n _), flatten_takePieces,
    flatten_takePieces, List.flatten_singleton]

theorem dropFlat_flatten {n : ℕ} {cs : List Bytes} (h : n ≤ cs.flatten.length) :
    dropFlat n [cs.flatten] = [(dropFlat n cs).flatten] := by
  rw [dropFlat_cons_of_le h, flatten_dropFlat]

/-- The segments of a stream at the start of a line do not show. -/
def SameAsWhole (lim : Limits) (cs : List Bytes) : Prop :=
  observed (resumeChunks lim cs) = observed (resumeChunks lim [cs.flatten])

/-- The event of a publish tells its body. -/
theorem published_inj {subject : Bytes} {reply : Option Bytes} {hdr : ℕ} {hpub : Bool}
    {b b' : Bytes} :
    published subject reply hdr hpub b = published subject reply hdr hpub b' ↔ b = b' := by
  constructor
  · intro h
    injection h
  · rintro rfl
    rfl

/-- The cuts of a body show exactly when its pieces come out of order or the cuts behind
it show. -/
theorem bodyResult_flatten_iff (lim : Limits) (subject : Bytes) (reply : Option Bytes)
    (hdr : ℕ) (hpub : Bool) (need : ℕ) (cs : List Bytes) :
    bodyResult lim subject reply hdr hpub [] need cs
        = bodyResult lim subject reply hdr hpub [] need [cs.flatten] ↔
      ((cs.flatten.drop need).take 2 = [13, 10] →
        InOrder (takePieces need cs) ∧ SameAsWhole lim (dropFlat (need + 2) cs)) := by
  rw [bodyResult, bodyResult, List.flatten_singleton]
  by_cases hterm : (cs.flatten.drop need).take 2 = [13, 10]
  · have hlen : need + 2 ≤ cs.flatten.length := by
      have := congrArg List.length hterm
      simp only [List.length_take, List.length_drop, List.length_cons, List.length_nil] at this
      omega
    rw [if_pos hterm, if_pos hterm, emit_singleton_inj, published_inj, List.nil_append,
      List.nil_append, assemble_takePieces_flatten, assemble_eq_flatten_iff,
      dropFlat_flatten hlen]
    exact ⟨fun h _ => h, fun h => h hterm⟩
  · rw [if_neg hterm, if_neg hterm]
    exact iff_of_true rfl fun h => absurd h hterm

/-- The cuts behind a control line show exactly through its body and what follows. -/
theorem lineResult_flatten_iff (lim : Limits) {at_ : ℕ} {cs : List Bytes}
    (hlen : at_ + 2 ≤ cs.flatten.length) :
    lineResult lim at_ cs = lineResult lim at_ [cs.flatten] ↔
      (lineHead lim cs.flatten at_).Rest (SameAsWhole lim) cs := by
  rw [lineResult, lineResult, lineHead, List.flatten_singleton, dropFlat_flatten hlen]
  cases parseLine (cs.flatten.take at_) lim with
  | error e => exact iff_of_true rfl trivial
  | ok act =>
      cases act with
      | event ev =>
          simp only
          by_cases hev : ev = .hpubAttempt .args
          · rw [if_pos hev, if_pos hev, if_pos hev]
            exact iff_of_true rfl trivial
          · rw [if_neg hev, if_neg hev, if_neg hev, emit_singleton_inj]
            exact and_iff_right rfl
      | body subject reply hdr need hpub =>
          have hemit : ∀ r r' : Outcome, emit (if hpub then [.hpubAttempt .ok] else []) r
              = emit (if hpub then [.hpubAttempt .ok] else []) r' ↔ r = r' := by
            intro r r'
            cases hpub with
            | true => exact emit_singleton_inj.trans (and_iff_right rfl)
            | false => exact Iff.rfl
          simp only
          rw [hemit, bodyResult_flatten_iff, flatten_dropFlat]
          by_cases hterm : ((cs.flatten.drop (at_ + 2)).drop need).take 2 = [13, 10]
          · rw [if_pos hterm]
            exact ⟨fun h => h hterm, fun h _ => h⟩
          · rw [if_neg hterm]
            exact iff_of_true (fun h => absurd h hterm) trivial

/-! ## The segmented parse against the single one -/

/-- A line within the limit never raises the error of the guard. -/
theorem lineResult_ne_guard (lim : Limits) (at_ : ℕ) (cs : List Bytes) :
    lineResult lim at_ cs ≠ ([], some (.fatal maxControlLineText)) := by
  have hout := parseLine_outcome (cs.flatten.take at_) lim
  rw [lineResult]
  cases hparse : parseLine (cs.flatten.take at_) lim with
  | error e =>
      rw [hparse] at hout
      rcases hout with rfl | rfl | rfl <;> simp [unknownOp, maxPayloadText, maxControlLineText]
  | ok act =>
      cases act with
      | event ev =>
          simp only
          split_ifs <;> simp [emit]
      | body subject reply hdr need hpub =>
          cases hpub with
          | true => simp [emit]
          | false =>
              simp only [Bool.false_eq_true, ↓reduceIte, emit_nil, bodyResult, bodyTail]
              split_ifs
              · simp [emit]
              · split <;> decide

section Line

variable {lim : Limits} {src : Bytes}

/-- A line that begins with LF. -/
theorem observed_resume_lf (hlf : src.head? = some 10) (segs : List Bytes) :
    observed (resume lim .line src segs) = ([], some (.fatal unknownOp)) := by
  have hturn : turn lim .line src = .ret .line src [] (.error (.fatal unknownOp)) := by
    simp only [turn, lineTurn, if_pos hlf]
  rw [resume_of_error hturn]
  rfl

/-- A complete line beyond the limit. -/
theorem observed_resume_long {at_ : ℕ} (hlf : src.head? ≠ some 10)
    (hfind : findCrlf src = some at_) (hlong : at_ > lim.maxControlLine)
    (segs : List Bytes) :
    observed (resume lim .line src segs) = ([], some (.fatal maxControlLineText)) := by
  have hturn : turn lim .line src =
      .ret .line src [] (.error (.fatal maxControlLineText)) := by
    simp only [turn, lineTurn, hfind, if_neg hlf, if_pos hlong]
  rw [resume_of_error hturn]
  rfl

/-- An unfinished line that trips the guard. -/
theorem observed_resume_guard (hlf : src.head? ≠ some 10) (hfind : findCrlf src = none)
    (hguard : lim.lineGuard < src.length) (segs : List Bytes) :
    observed (resume lim .line src segs) = ([], some (.fatal maxControlLineText)) := by
  have hturn : turn lim .line src =
      .ret .line src [] (.error (.fatal maxControlLineText)) := by
    simp only [turn, lineTurn, hfind, if_neg hlf, if_pos hguard]
  rw [resume_of_error hturn]
  rfl

/-- An unfinished line that the guard lets pass. -/
theorem resume_unfinished (hlf : src.head? ≠ some 10) (hfind : findCrlf src = none)
    (hguard : src.length ≤ lim.lineGuard) (segs : List Bytes) :
    resume lim .line src segs = feedSegments lim .line src segs := by
  have hturn : turn lim .line src = .ret .line src [] (.ok ()) := by
    simp only [turn, lineTurn, hfind, if_neg hlf, if_neg (Nat.not_lt.mpr hguard)]
  rw [resume_of_ret hturn, emit_nil]

theorem head?_append_of_ne_nil (h : src ≠ []) (w : Bytes) :
    (src ++ w).head? = src.head? := by
  cases src with
  | nil => exact absurd rfl h
  | cons a rest => rfl

/-- The line of the buffer trips the guard: the cuts show exactly when the whole stream
has a line within the limit there. -/
theorem sameAsWhole_iff_of_guard (hlf : src.head? ≠ some 10) (hfind : findCrlf src = none)
    (hguard : lim.lineGuard < src.length) (segs : List Bytes) :
    SameAsWhole lim (src :: segs) ↔ Clean lim (src :: segs) := by
  have hne : src ≠ [] := List.length_pos_iff.mp (by omega)
  have hlf' : (src :: segs).flatten.head? ≠ some 10 := by
    rwa [List.flatten_cons, head?_append_of_ne_nil hne]
  have hlen : src.length ≤ (src :: segs).flatten.length := by
    rw [List.flatten_cons, List.length_append]
    omega
  rw [SameAsWhole, resumeChunks, resumeChunks, observed_resume_guard hlf hfind hguard]
  cases hat : findCrlf (src :: segs).flatten with
  | none =>
      rw [observed_resume_guard hlf' hat (by omega)]
      exact iff_of_true rfl (clean_of_none (by rw [headOf, if_neg hlf', hat]))
  | some at_ =>
      by_cases hlong : at_ > lim.maxControlLine
      · rw [observed_resume_long hlf' hat hlong]
        refine iff_of_true rfl (clean_of_none ?_)
        simp only [headOf, if_neg hlf', hat, if_pos hlong]
      · rw [observed_resume_line hlf' hat (by omega)]
        have hhead : headOf lim (src :: segs).flatten
            = lineHead lim (src :: segs).flatten at_ := by
          simp only [headOf, if_neg hlf', hat, if_neg hlong]
        have hlt : src.length < at_ + 2 := by
          rw [findCrlf_eq, List.flatten_cons] at hat
          exact length_lt_of_findPair_append (findCrlf_eq src ▸ hfind) hat
        -- the whole stream has a line here, and no line ends in the error of the guard
        refine iff_of_false (lineResult_ne_guard lim at_ _).symm fun hclean => ?_
        rw [clean_iff (by rw [hhead, lineAt_lineHead])] at hclean
        exact not_noCutIn_cons hguard hlt segs hclean.1

/-- The buffer holds a whole line: the cuts show exactly through what follows it. -/
theorem sameAsWhole_iff_of_line {at_ : ℕ} (hlf : src.head? ≠ some 10)
    (hfind : findCrlf src = some at_) (segs : List Bytes)
    (ih : ∀ cs, cs.flatten.length < (src :: segs).flatten.length →
      (SameAsWhole lim cs ↔ Clean lim cs)) :
    SameAsWhole lim (src :: segs) ↔ Clean lim (src :: segs) := by
  have hlen : at_ + 2 ≤ src.length := findPair_add_two_le (findCrlf_eq src ▸ hfind)
  have hlen' : at_ + 2 ≤ (src :: segs).flatten.length := by
    rw [List.flatten_cons, List.length_append]
    omega
  have hlf' : (src :: segs).flatten.head? ≠ some 10 := by
    rwa [List.flatten_cons, head?_append_of_ne_nil (List.length_pos_iff.mp (by omega))]
  have hfind' : findCrlf (src :: segs).flatten = some at_ := by
    rw [findCrlf_eq, List.flatten_cons]
    exact findPair_append_of_some (findCrlf_eq src ▸ hfind) _
  by_cases hlong : at_ > lim.maxControlLine
  · rw [SameAsWhole, resumeChunks, resumeChunks, observed_resume_long hlf hfind hlong,
      observed_resume_long hlf' hfind' hlong]
    refine iff_of_true rfl (clean_of_none ?_)
    simp only [headOf, if_neg hlf', hfind', if_pos hlong]
  · have hle := Nat.not_lt.mp hlong
    have hhead : headOf lim (src :: segs).flatten
        = lineHead lim (src :: segs).flatten at_ := by
      simp only [headOf, if_neg hlf', hfind', if_neg hlong]
    rw [SameAsWhole, resumeChunks, resumeChunks, observed_resume_line hlf hfind hle,
      observed_resume_line hlf' hfind' hle, lineResult_flatten_iff lim hlen',
      clean_iff (by rw [hhead, lineAt_lineHead]), hhead,
      and_iff_right (noCutIn_cons_of_le hlen segs)]
    have hdrop : (dropFlat (at_ + 2) (src :: segs)).flatten.length
        < (src :: segs).flatten.length := by
      rw [flatten_dropFlat, List.length_drop]
      omega
    have hat := lineAt_lineHead lim (src :: segs).flatten at_
    -- the line has been read; only an event or a publish leaves bytes to compare
    cases hline : lineHead lim (src :: segs).flatten at_ with
    | none => rfl
    | last n => rfl
    | event n =>
        rw [hline] at hat
        cases hat
        exact ih _ hdrop
    | publish n need =>
        rw [hline] at hat
        cases hat
        have hdrop' : (dropFlat (need + 2) (dropFlat (at_ + 2) (src :: segs))).flatten.length
            < (src :: segs).flatten.length := by
          rw [flatten_dropFlat, List.length_drop]
          omega
        exact and_congr_right fun _ => ih _ hdrop'

/-- The buffer alone decides how the line comes out: it begins with LF, it holds the whole
line, or it is longer than the guard allows. -/
def Decided (lim : Limits) (src : Bytes) : Prop :=
  src.head? = some 10 ∨ findCrlf src ≠ none ∨ lim.lineGuard < src.length

instance (lim : Limits) (src : Bytes) : Decidable (Decided lim src) :=
  inferInstanceAs (Decidable (_ ∨ _ ∨ _))

/-- A decided turn brings the question down to fewer bytes. -/
theorem sameAsWhole_iff_of_decided (hdec : Decided lim src) (segs : List Bytes)
    (ih : ∀ cs, cs.flatten.length < (src :: segs).flatten.length →
      (SameAsWhole lim cs ↔ Clean lim cs)) :
    SameAsWhole lim (src :: segs) ↔ Clean lim (src :: segs) := by
  by_cases hlf : src.head? = some 10
  · have hlf' : (src :: segs).flatten.head? = some 10 := by
      rw [List.flatten_cons, head?_append_of_ne_nil (by rintro rfl; cases hlf), hlf]
    rw [SameAsWhole, resumeChunks, resumeChunks, observed_resume_lf hlf, observed_resume_lf hlf']
    exact iff_of_true rfl (clean_of_none (by rw [headOf, if_pos hlf']))
  · cases hfind : findCrlf src with
    | some at_ => exact sameAsWhole_iff_of_line hlf hfind segs ih
    | none =>
        rcases hdec with h | h | h
        · exact absurd h hlf
        · exact absurd hfind h
        · exact sameAsWhole_iff_of_guard hlf hfind h segs

/-- Inside a line, by induction on the segments: each that does not decide the line is
joined to the buffer. -/
theorem sameAsWhole_cons_iff (segs : List Bytes)
    (ih : ∀ cs, cs.flatten.length < (src :: segs).flatten.length →
      (SameAsWhole lim cs ↔ Clean lim cs)) :
    SameAsWhole lim (src :: segs) ↔ Clean lim (src :: segs) := by
  induction segs generalizing src with
  | nil =>
      by_cases hdec : Decided lim src
      · exact sameAsWhole_iff_of_decided hdec [] ih
      · simp only [Decided, not_or, not_not, Nat.not_lt] at hdec
        rw [SameAsWhole, List.flatten_singleton]
        refine iff_of_true rfl (clean_of_none ?_)
        rw [List.flatten_singleton, headOf, if_neg hdec.1, hdec.2.1]
  | cons c cs ihs =>
      by_cases hdec : Decided lim src
      · exact sameAsWhole_iff_of_decided hdec (c :: cs) ih
      · simp only [Decided, not_or, not_not, Nat.not_lt] at hdec
        have hflat : (src :: c :: cs).flatten = ((src ++ c) :: cs).flatten := by simp
        rw [clean_cons_cons_iff hdec.2.1 hdec.2.2, SameAsWhole, resumeChunks,
          resume_unfinished hdec.1 hdec.2.1 hdec.2.2, feedSegments_cons, hflat]
        exact ihs (hflat ▸ ih)

end Line

/-- From the start of a line, the cuts do not show exactly when they are clean. -/
theorem sameAsWhole_iff_clean (lim : Limits) (cs : List Bytes) :
    SameAsWhole lim cs ↔ Clean lim cs := by
  induction hn : cs.flatten.length using Nat.strong_induction_on generalizing cs with
  | _ n ih =>
      subst hn
      cases cs with
      | nil =>
          refine iff_of_true ?_ (clean_of_none rfl)
          rw [SameAsWhole, resumeChunks, List.flatten_nil, resumeChunks,
            resume_unfinished (by simp) rfl (Nat.zero_le _)]
          rfl
      | cons src segs => exact sameAsWhole_cons_iff segs fun cs h => ih _ h cs rfl

/-- A fresh parser reads its segments as the chunks of a stream at the start of a line. -/
theorem feedSegments_line (lim : Limits) (segs : List Bytes) :
    feedSegments lim .line [] segs = resumeChunks lim segs := by
  cases segs with
  | nil => rfl
  | cons seg segs => rfl

/-- **Segmentation.**  Feeding a stream in segments gives the events, with every field and
every body byte, and the error of feeding it in one call exactly when the segments are
clean. -/
theorem parseSegments_eq_iff_clean (lim : Limits) (segs : List Bytes) :
    parseSegments lim segs = parseSegments lim [segs.flatten] ↔ Clean lim segs := by
  rw [parseSegments, parseSegments, feedSegments_line, feedSegments_line]
  exact sameAsWhole_iff_clean lim segs

/-- A three-byte body in three reads comes out rotated: published as `abc`, delivered as
`cab`. -/
theorem parseSegments_three_reads :
    parseSegments Limits.default [ascii "PUB a 3\r\na", ascii "b", ascii "c\r\n"] ≠
      parseSegments Limits.default [ascii "PUB a 3\r\nabc\r\n"] := by
  decide +kernel

/-- With a line limit whose sixteenfold fits a machine word, the guard never cuts a line
short: what is left of `Clean` is the order of the body pieces. -/
theorem noCutIn_lineGuard {lim : Limits} (hpos : 1 ≤ lim.maxControlLine)
    (hfit : lim.maxControlLine * 16 < 2 ^ 64) {at_ : ℕ} (hat : at_ ≤ lim.maxControlLine)
    (cs : List Bytes) : NoCutIn lim.lineGuard (at_ + 2) cs := by
  have hguard : lim.lineGuard = lim.maxControlLine * 16 := Nat.mod_eq_of_lt hfit
  intro p _
  omega

/-- **One cut never shows.**  Two chunks make at most two pieces of any body. -/
theorem clean_of_length_le_two {lim : Limits} (hpos : 1 ≤ lim.maxControlLine)
    (hfit : lim.maxControlLine * 16 < 2 ^ 64) {cs : List Bytes} (hcs : cs.length ≤ 2) :
    Clean lim cs := by
  induction hn : cs.flatten.length using Nat.strong_induction_on generalizing cs with
  | _ n ih =>
      subst hn
      cases hat : (headOf lim cs.flatten).lineAt with
      | none => exact clean_of_none (head_eq_none_of_lineAt hat)
      | some at_ =>
          have hlen := add_two_le_of_headOf hat
          have hle := (findCrlf_of_headOf hat).2
          refine (clean_iff hat).mpr ⟨noCutIn_lineGuard hpos hfit hle cs, ?_⟩
          have hrest : (dropFlat (at_ + 2) cs).length ≤ 2 :=
            (length_dropFlat_le _ cs).trans hcs
          have hdrop : (dropFlat (at_ + 2) cs).flatten.length < cs.flatten.length := by
            rw [flatten_dropFlat, List.length_drop]
            omega
          cases hhead : headOf lim cs.flatten with
          | none => trivial
          | last n => trivial
          | event n =>
              rw [hhead] at hat
              cases hat
              exact ih _ hdrop hrest rfl
          | publish n need =>
              rw [hhead] at hat
              cases hat
              -- a body out of two chunks is in two pieces at most, which are joined
              refine ⟨Or.inl ?_, ih _ ?_ ((length_dropFlat_le _ _).trans hrest) rfl⟩
              · exact Nat.lt_succ_of_le ((length_takePieces_le need _).trans hrest)
              · rw [flatten_dropFlat, List.length_drop]
                omega

end Proto

end NatsServer
