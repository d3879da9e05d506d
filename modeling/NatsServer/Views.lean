/-
# What the parser keeps of a read buffer

The parser hands out and keeps slices of the buffer that was read into.  The buffer can be read
into again in place only when no slice of it is left, so `feed_into` turns what a publish still
needs into bytes of its own before it returns (`hoist`).

The parser of `Proto.lean` does not tell a slice from a copy.  Here it does: `Piece` says which
one it is and into which buffer its bytes were read, and `turn` is the same machine on pieces
(`erase_turn`).  Of the body, `Parts::hoist` copies the last piece of `rest`, which is not always
the one that was read last: `Parts::push` puts every other piece into `first`.  So the third
piece, the fifth and so on stay slices of the buffers they were read into, and nothing else does
(`views_of_reads`).

Which buffer a read goes to is decided by `BytesMut::reserve`, in the crate `bytes`, and is not
modelled: every read of `reads` comes with the buffer it was made into, whichever that is.
-/
import NatsServer.Segments

namespace NatsServer.Views

open Proto (Limits Event ProtoError HpubOutcome)

/-! ## Slices and copies -/

variable {β : Type}

/-- A `Bytes` of the parser: a slice of the buffer `buf` that it was read into, or a copy of what
was read there.  No slice is empty, since an empty one is the shared static. -/
structure Piece (β : Type) where
  bytes : Bytes
  buf : β
  view : Bool
  ne_nil : view = true → bytes ≠ []

/-- A slice of the buffer. -/
def slice (buf : β) (b : Bytes) : Piece β := ⟨b, buf, !b.isEmpty, by simp⟩

def own (b : Piece β) : Piece β := if b.bytes.isEmpty then b else ⟨b.bytes, b.buf, false, nofun⟩

@[simp] theorem bytes_slice (buf : β) (b : Bytes) : (slice buf b).bytes = b := rfl

@[simp] theorem bytes_own (b : Piece β) : (own b).bytes = b.bytes := by
  unfold own
  split <;> rfl

@[simp] theorem buf_own (b : Piece β) : (own b).buf = b.buf := by
  unfold own
  split <;> rfl

/-- A copy is no slice, of whatever it was made. -/
@[simp] theorem view_own (b : Piece β) : (own b).view = false := by
  unfold own
  split
  · rename_i hempty
    refine Bool.eq_false_iff.mpr fun hview => b.ne_nil hview ?_
    exact List.isEmpty_iff.mp hempty
  · rfl

/-! ## The machine on pieces -/

/-- `Parts`. -/
structure Parts (β : Type) where
  first : Option (Piece β)
  rest : List (Piece β)
  got : ℕ
  fresh : Bool

namespace Parts

def new : Parts β := ⟨none, [], 0, false⟩

def push (p : Parts β) (b : Piece β) : Parts β :=
  match p.first with
  | none => { p with got := p.got + b.bytes.length, fresh := true, first := some b }
  | some f =>
      { got := p.got + b.bytes.length, fresh := true, first := none, rest := p.rest ++ [f, b] }

def hoist (p : Parts β) : Parts β :=
  if !p.fresh then p
  else
    match p.rest.getLast? with
    | some last => { p with fresh := false, rest := p.rest.dropLast ++ [own last] }
    | none => { p with fresh := false, first := p.first.map own }

/-- The bytes of the one piece, or of a copy of all of them.  Whether the body of an event is a
slice does not matter: the event is gone before the buffer is read into again. -/
def takeBody (p : Parts β) : Bytes :=
  match p.first, p.rest with
  | some b, [] => b.bytes
  | none, [] => []
  | first, rest => (first.map Piece.bytes).getD [] ++ (rest.map Piece.bytes).flatten

/-- The bytes alone. -/
def erase (p : Parts β) : Proto.Parts :=
  ⟨p.first.map Piece.bytes, p.rest.map Piece.bytes, p.got, p.fresh⟩

end Parts

inductive State (β : Type) where
  | line
  | body (subject : Piece β) (reply : Option (Piece β)) (hdr need : ℕ) (hpub : Bool)
      (parts : Parts β)

def State.hoist : State β → State β
  | .line => .line
  | .body subject reply hdr need hpub parts =>
      .body (own subject) (reply.map own) hdr need hpub parts.hoist

def State.erase : State β → Proto.State
  | .line => .line
  | .body subject reply hdr need hpub parts =>
      .body subject.bytes (reply.map Piece.bytes) hdr need hpub parts.erase

/-- One turn of the loop. -/
inductive Turn (β : Type) where
  | next (state : State β) (src : Bytes) (out : List Event)
  | ret (state : State β) (src : Bytes) (out : List Event) (res : Except ProtoError Unit)

def Turn.erase : Turn β → Proto.Turn
  | .next st src out => .next st.erase src out
  | .ret st src out res => .ret st.erase src out res

/-- A control line: subject and reply are slices of it. -/
def completeLine (lim : Limits) (buf : β) (src : Bytes) (at_ : ℕ) : Turn β :=
  match Proto.parseLine (src.take at_) lim with
  | .error e => .ret .line (src.drop (at_ + 2)) [] (.error e)
  | .ok (.event ev) =>
      if ev = .hpubAttempt .args then .ret .line (src.drop (at_ + 2)) [ev] (.ok ())
      else .next .line (src.drop (at_ + 2)) [ev]
  | .ok (.body subject reply hdr need hpub) =>
      .next (.body (slice buf subject) (reply.map (slice buf)) hdr need hpub .new)
        (src.drop (at_ + 2)) (if hpub then [.hpubAttempt .ok] else [])

def lineTurn (lim : Limits) (buf : β) (src : Bytes) : Turn β :=
  if src.head? = some 10 then .ret .line src [] (.error (.fatal Proto.unknownOp))
  else match Proto.findCrlf src with
    | none =>
        if src.length > lim.lineGuard then
          .ret .line src [] (.error (.fatal Proto.maxControlLineText))
        else .ret .line src [] (.ok ())
    | some at_ =>
        if at_ > lim.maxControlLine then
          .ret .line src [] (.error (.fatal Proto.maxControlLineText))
        else completeLine lim buf src at_

def takeInto (buf : β) (need : ℕ) (parts : Parts β) (src : Bytes) : Parts β :=
  let take := min (need - parts.got) src.length
  if take > 0 then parts.push (slice buf (src.take take)) else parts

def bodyTurn (buf : β) (subject : Piece β) (reply : Option (Piece β)) (hdr need : ℕ)
    (hpub : Bool) (parts : Parts β) (src : Bytes) : Turn β :=
  let parts' := takeInto buf need parts src
  let src' := src.drop (min (need - parts.got) src.length)
  let st := State.body subject reply hdr need hpub parts'
  let wait := Turn.ret st.hoist src' [] (.ok ())
  -- nothing is hoisted here
  let bad := Turn.ret st src' (Proto.hpubFrameError hpub).1 (Proto.hpubFrameError hpub).2
  if parts'.got < need then wait
  else match src' with
    | [] => wait
    | 13 :: 10 :: rest =>
        .next .line rest [.publish subject.bytes (reply.map Piece.bytes) hdr
          parts'.takeBody.length hpub parts'.takeBody]
    | 13 :: _ :: _ => bad
    | [13] => wait
    | _ :: _ => bad

/-- One turn, over what is left of `buf`. -/
def turn (lim : Limits) (buf : β) : State β → Bytes → Turn β
  | .line, src => lineTurn lim buf src
  | .body subject reply hdr need hpub parts, src =>
      bodyTurn buf subject reply hdr need hpub parts src

/-! ## It is the same machine -/

section Erase

/-- Pushing a piece pushes its bytes. -/
theorem erase_push (p : Parts β) (b : Piece β) : (p.push b).erase = p.erase.push b.bytes := by
  obtain ⟨first, rest, got, fresh⟩ := p
  cases first with
  | none => rfl
  | some f => simp [Parts.push, Parts.erase, Proto.Parts.push]

/-- Hoisting changes no bytes. -/
theorem erase_hoist (p : Parts β) : p.hoist.erase = p.erase.hoist := by
  obtain ⟨first, rest, got, fresh⟩ := p
  cases fresh with
  | false => rfl
  | true =>
      cases hlast : rest.getLast? with
      | none =>
          simp only [Parts.hoist, hlast, Parts.erase, Proto.Parts.hoist]
          cases first <;> simp
      | some last =>
          have hrest : rest = rest.dropLast ++ [last] :=
            (List.dropLast_append_getLast? last hlast).symm
          simp only [Parts.hoist, hlast, Parts.erase, Proto.Parts.hoist, Bool.not_true,
            Bool.false_eq_true, if_false]
          conv_rhs => rw [hrest]
          simp

/-- The body is made of the bytes of the pieces. -/
theorem takeBody_erase (p : Parts β) : p.takeBody = p.erase.takeBody := by
  obtain ⟨first, rest, got, fresh⟩ := p
  cases first <;> cases rest <;> rfl

/-- Taking bytes for a body, without the views. -/
theorem erase_takeInto (buf : β) (need : ℕ) (parts : Parts β) (src : Bytes) :
    (takeInto buf need parts src).erase = Proto.takeInto need parts.erase src := by
  simp only [takeInto, Proto.takeInto]
  change _ = if min (need - parts.got) src.length > 0 then _ else _
  split
  · rw [erase_push, bytes_slice]
    rfl
  · rfl

/-- A complete line, without the views. -/
theorem erase_completeLine (lim : Limits) (buf : β) (src : Bytes) (at_ : ℕ) :
    (completeLine lim buf src at_).erase = Proto.completeLine lim src at_ := by
  unfold completeLine Proto.completeLine
  cases Proto.parseLine (src.take at_) lim with
  | error e => rfl
  | ok action =>
      cases action with
      | event ev => exact apply_ite Turn.erase _ _ _
      | body subject reply hdr need hpub => cases reply <;> rfl

/-- A turn at a line, without the views. -/
theorem erase_lineTurn (lim : Limits) (buf : β) (src : Bytes) :
    (lineTurn lim buf src).erase = Proto.lineTurn lim src := by
  rw [lineTurn, Proto.lineTurn, apply_ite Turn.erase]
  congr 1
  cases Proto.findCrlf src with
  | none => exact apply_ite Turn.erase _ _ _
  | some at_ => exact (apply_ite Turn.erase _ _ _).trans (by rw [erase_completeLine]; rfl)

/-- A turn at a body, without the views. -/
theorem erase_bodyTurn (buf : β) (subject : Piece β) (reply : Option (Piece β)) (hdr need : ℕ)
    (hpub : Bool) (parts : Parts β) (src : Bytes) :
    (bodyTurn buf subject reply hdr need hpub parts src).erase =
      Proto.bodyTurn subject.bytes (reply.map Piece.bytes) hdr need hpub parts.erase src := by
  have hreply : (reply.map own).map Piece.bytes = reply.map Piece.bytes := by
    cases reply <;> simp
  have hgot : parts.erase.got = parts.got := rfl
  simp only [bodyTurn, Proto.bodyTurn, ← erase_takeInto buf, hgot]
  generalize takeInto buf need parts src = parts'
  generalize src.drop (min (need - parts.got) src.length) = v
  have hwait : (State.body subject reply hdr need hpub parts').hoist.erase =
      .body subject.bytes (reply.map Piece.bytes) hdr need hpub parts'.erase.hoist := by
    simp only [State.hoist, State.erase, bytes_own, hreply, erase_hoist]
  rw [apply_ite Turn.erase, Turn.erase, hwait]
  refine if_congr Iff.rfl rfl ?_
  split <;> simp only [Turn.erase, hwait, takeBody_erase] <;> rfl

/-- **Slices or not**, the parser does the same. -/
theorem erase_turn (lim : Limits) (buf : β) (st : State β) (src : Bytes) :
    (turn lim buf st src).erase = Proto.turn lim st.erase src := by
  cases st with
  | line => exact erase_lineTurn lim buf src
  | body subject reply hdr need hpub parts =>
      exact erase_bodyTurn buf subject reply hdr need hpub parts src

/-- A turn that goes on takes bytes off the buffer. -/
theorem length_lt_of_turn_next {lim : Limits} {buf : β} {st st' : State β} {src src' : Bytes}
    {out : List Event} (h : turn lim buf st src = .next st' src' out) :
    src'.length < src.length := by
  have herase := erase_turn lim buf st src
  rw [h] at herase
  exact Proto.length_lt_of_turn_next herase.symm

end Erase

/-! ## Calls and reads -/

structure Feed (β : Type) where
  state : State β
  src : Bytes
  out : List Event
  res : Except ProtoError Unit

def Feed.erase (f : Feed β) : Proto.Feed := ⟨f.state.erase, f.src, f.out, f.res⟩

/-- `Parser::feed_into`. -/
def feedInto (lim : Limits) (buf : β) (st : State β) (src : Bytes) (out : List Event) : Feed β :=
  match h : turn lim buf st src with
  | .ret st' src' evs res => ⟨st', src', out ++ evs, res⟩
  | .next st' src' evs =>
      have := length_lt_of_turn_next h
      feedInto lim buf st' src' (out ++ evs)
termination_by src.length

/-- The reads of a connection, each with the buffer it was made into, as long as nothing ends it:
an error of the parser, or an event after which it is closed.  What the parser left of the read
before is in front, in the same buffer. -/
def reads (lim : Limits) : State β → Bytes → List (β × Bytes) → Option (State β × Bytes)
  | st, src, [] => some (st, src)
  | st, src, (buf, seg) :: segs =>
      let f := feedInto lim buf st (src ++ seg) []
      match f.res with
      | .error _ => none
      | .ok () => if f.out.any Proto.stops then none else reads lim f.state f.src segs

/-- A call, without the views. -/
theorem erase_feedInto (lim : Limits) (buf : β) (st : State β) (src : Bytes) (out : List Event) :
    (feedInto lim buf st src out).erase = Proto.feedInto lim st.erase src out := by
  fun_induction feedInto lim buf st src out with
  | case1 st src out st' src' evs res hturn =>
      have herase := erase_turn lim buf st src
      rw [hturn] at herase
      rw [Proto.feedInto_of_ret herase.symm]
      rfl
  | case2 st src out st' src' evs hturn _ ih =>
      have herase := erase_turn lim buf st src
      rw [hturn] at herase
      rw [Proto.feedInto_of_next herase.symm, ih]

/-! ## What stays a slice -/

/-- The pieces of a body in the order in which they came. -/
def Parts.pieces (p : Parts β) : List (Piece β) := p.rest ++ p.first.toList

/-- The third piece, the fifth and so on. -/
def stays (i : ℕ) : Bool := decide (2 ≤ i) && i % 2 == 0

/-- A piece at an odd place is copied. -/
theorem stays_eq_false_of_odd {i : ℕ} (hodd : i % 2 = 1) : stays i = false := by
  rw [stays, Bool.and_eq_false_iff]
  exact .inr (beq_eq_false_iff_ne.mpr (by omega))

/-- Nothing was read since the last `hoist`, and the pieces are slices that `stays` says. -/
structure Parts.Hoisted (p : Parts β) : Prop where
  fresh : p.fresh = false
  first : p.first.isSome = decide (p.pieces.length % 2 = 1)
  views : p.pieces.map Piece.view = (List.range p.pieces.length).map stays

namespace Parts

theorem hoisted_new : (Parts.new : Parts β).Hoisted := ⟨rfl, rfl, rfl⟩

variable {p : Parts β}

theorem Hoisted.hoist (h : p.Hoisted) : p.hoist = p := by
  simp [Parts.hoist, h.fresh]

/-- One more piece keeps the pattern of views and copies. -/
theorem views_concat {l : List (Piece β)}
    (h : l.map Piece.view = (List.range l.length).map stays) {b : Piece β}
    (hb : b.view = stays l.length) :
    (l ++ [b]).map Piece.view = (List.range (l ++ [b]).length).map stays := by
  simp [List.range_succ, h, hb]

/-- The last of an even number of pieces is a copy. -/
theorem view_getLast {l : List (Piece β)}
    (h : l.map Piece.view = (List.range l.length).map stays) (heven : l.length % 2 = 0)
    {last : Piece β} (hlast : l.getLast? = some last) :
    last.view = false := by
  have hview : (l.map Piece.view).getLast? = some last.view := by
    rw [List.getLast?_map, hlast, Option.map_some]
  have hpos : 0 < l.length := by
    rw [List.length_pos_iff]
    rintro rfl
    cases hlast
  rw [h, List.getLast?_map, List.getLast?_range, if_neg (by omega), Option.map_some,
    Option.some.injEq] at hview
  rw [← hview]
  exact stays_eq_false_of_odd (by omega)

/-- **One more piece.**  The second of a pair is copied by the `hoist` behind it.  The first of a
pair is not, unless it is the only piece: the `hoist` copies the last one of `rest` once more. -/
theorem Hoisted.push (h : p.Hoisted) {b : Piece β} (hb : b.view = true) :
    (p.push b).hoist.Hoisted := by
  have hfirst := h.first
  have hviews := h.views
  obtain ⟨first, rest, got, fresh⟩ := p
  cases first with
  | some f =>
      have hodd : (rest ++ [f]).length % 2 = 1 := by
        simpa [pieces] using hfirst
      have hhoist : (Parts.push ⟨some f, rest, got, fresh⟩ b).hoist =
          ⟨none, rest ++ [f] ++ [own b], got + b.bytes.length, false⟩ := by
        simp [Parts.push, Parts.hoist, List.getLast?_append]
      rw [hhoist]
      refine ⟨rfl, ?_, ?_⟩
      · rw [pieces, Option.toList_none, List.append_nil, List.length_append,
          List.length_singleton, eq_comm]
        exact decide_eq_false (by omega)
      · rw [pieces, Option.toList_none, List.append_nil]
        refine views_concat hviews ?_
        rw [view_own]
        exact (stays_eq_false_of_odd hodd).symm
  | none =>
      have heven : rest.length % 2 = 0 := by
        simpa [pieces] using hfirst
      rw [pieces, Option.toList_none, List.append_nil] at hviews
      cases hlast : rest.getLast? with
      | none =>
          obtain rfl := List.getLast?_eq_none_iff.mp hlast
          exact ⟨rfl, rfl, by simp [Parts.push, Parts.hoist, pieces, stays]⟩
      | some last =>
          have hrest : rest.dropLast ++ [last] = rest := List.dropLast_append_getLast? last hlast
          have hhoist : (Parts.push ⟨none, rest, got, fresh⟩ b).hoist =
              ⟨some b, rest.dropLast ++ [own last], got + b.bytes.length, false⟩ := by
            simp [Parts.push, Parts.hoist, hlast]
          have hsame : (rest.dropLast ++ [own last]).map Piece.view = rest.map Piece.view := by
            conv_rhs => rw [← hrest]
            simp [view_getLast hviews heven hlast]
          have hlength : (rest.dropLast ++ [own last]).length = rest.length := by
            conv_rhs => rw [← hrest]
            simp
          have hpos : 0 < rest.length := by
            rw [← hrest]
            simp
          rw [hhoist]
          refine ⟨rfl, ?_, ?_⟩
          · rw [pieces, Option.toList_some, List.length_append, hlength,
              List.length_singleton, eq_comm]
            exact decide_eq_true (by omega)
          · rw [pieces, Option.toList_some]
            refine views_concat (by rw [hsame, hlength, hviews]) ?_
            rw [hb, hlength, eq_comm, stays, Bool.and_eq_true]
            exact ⟨decide_eq_true (by omega), beq_iff_eq.mpr heven⟩

/-- The pieces stand in the order in which they came. -/
theorem pieces_push (p : Parts β) (b : Piece β) : (p.push b).pieces = p.pieces ++ [b] := by
  obtain ⟨first, rest, got, fresh⟩ := p
  cases first <;> simp [push, pieces]

/-- Copying a piece does not forget where it was read. -/
theorem bufs_hoist (p : Parts β) : p.hoist.pieces.map Piece.buf = p.pieces.map Piece.buf := by
  obtain ⟨first, rest, got, fresh⟩ := p
  cases fresh with
  | false => rfl
  | true =>
      cases hlast : rest.getLast? with
      | none => cases first <;> simp [Parts.hoist, hlast, pieces]
      | some last =>
          have hrest : rest = rest.dropLast ++ [last] :=
            (List.dropLast_append_getLast? last hlast).symm
          simp only [Parts.hoist, hlast, pieces, Bool.not_true, Bool.false_eq_true, if_false]
          conv_rhs => rw [hrest]
          simp

end Parts

namespace State

/-- Subject and reply of the publish that is waited for. -/
def names : State β → List (Piece β)
  | .line => []
  | .body subject reply _ _ _ _ => subject :: reply.toList

/-- The pieces of its body that have come. -/
def pieces : State β → List (Piece β)
  | .line => []
  | .body _ _ _ _ _ parts => parts.pieces

/-- The body has been hoisted, and its pieces were read into some of these buffers; subject and
reply may be new. -/
structure Ready (bufs : List β) (st : State β) : Prop where
  parts : ∀ subject reply hdr need hpub parts, st = .body subject reply hdr need hpub parts →
    parts.Hoisted
  bufs : (st.pieces.map Piece.buf).Sublist bufs

/-- What a call leaves. -/
structure Hoisted (bufs : List β) (st : State β) : Prop extends st.Ready bufs where
  names : ∀ p ∈ st.names, p.view = false

theorem hoisted_line (bufs : List β) : State.line.Hoisted bufs where
  parts := nofun
  bufs := List.nil_sublist _
  names := nofun

end State

section Leaves

variable {bufs : List β} {buf : β} {subject : Piece β} {reply : Option (Piece β)} {hdr need : ℕ}
  {hpub : Bool} {parts : Parts β}

/-- A body that has just begun. -/
theorem ready_new (bufs : List β) :
    (State.body subject reply hdr need hpub .new).Ready bufs where
  parts := by
    rintro _ _ _ _ _ _ ⟨⟩
    exact Parts.hoisted_new
  bufs := List.nil_sublist _

/-- A body that is hoisted whole. -/
theorem hoisted_of_parts (h : parts.hoist.Hoisted)
    (hbufs : (parts.pieces.map Piece.buf).Sublist bufs) :
    (State.body subject reply hdr need hpub parts).hoist.Hoisted bufs where
  parts := by
    rintro _ _ _ _ _ _ ⟨⟩
    exact h
  bufs := (parts.bufs_hoist).symm ▸ hbufs
  names := by
    intro p hp
    simp only [State.hoist, State.names, List.mem_cons, Option.mem_toList,
      Option.map_eq_some_iff] at hp
    rcases hp with rfl | ⟨r, -, rfl⟩ <;> exact view_own _

/-- What a read brings of a body is one piece, a slice of the buffer that was read into. -/
theorem hoisted_takeInto (buf : β) (h : parts.Hoisted) (need : ℕ) (src : Bytes) :
    (takeInto buf need parts src).hoist.Hoisted := by
  simp only [takeInto]
  split
  · rename_i htake
    refine h.push ?_
    have hne : src.take (min (need - parts.got) src.length) ≠ [] := by
      rw [Ne, List.take_eq_nil_iff]
      rintro (hzero | rfl)
      · omega
      · simp at htake
    simpa [slice] using hne
  · rw [h.hoist]
    exact h

/-- Taking bytes adds at most the buffer of this read. -/
theorem bufs_takeInto (buf : β) (hbufs : (parts.pieces.map Piece.buf).Sublist bufs) (need : ℕ)
    (src : Bytes) :
    ((takeInto buf need parts src).pieces.map Piece.buf).Sublist (bufs ++ [buf]) := by
  simp only [takeInto]
  split
  · rw [Parts.pieces_push, List.map_append]
    exact hbufs.append (List.Sublist.refl _)
  · exact hbufs.trans (List.sublist_append_left _ _)

/-- What a turn leaves when it works on `buf`: a call that returns without ending the connection
has hoisted. -/
def Turn.Leaves (bufs : List β) (buf : β) : Turn β → Prop
  | .next st _ _ => st.Ready bufs
  | .ret st _ evs res => res = .ok () → evs.any Proto.stops = false → st.Hoisted (bufs ++ [buf])

/-- What a complete line leaves behind. -/
theorem leaves_completeLine (lim : Limits) (bufs : List β) (buf : β) (src : Bytes) (at_ : ℕ) :
    (completeLine lim buf src at_).Leaves bufs buf := by
  unfold completeLine
  split
  · exact fun _ _ => State.hoisted_line _
  · split
    · exact fun _ _ => State.hoisted_line _
    · exact (State.hoisted_line bufs).toReady
  · exact ready_new bufs

/-- What a turn at a line leaves behind. -/
theorem leaves_lineTurn (lim : Limits) (bufs : List β) (buf : β) (src : Bytes) :
    (lineTurn lim buf src).Leaves bufs buf := by
  unfold lineTurn
  split
  · exact fun _ _ => State.hoisted_line _
  · split
    · split <;> exact fun _ _ => State.hoisted_line _
    · split
      · exact fun _ _ => State.hoisted_line _
      · exact leaves_completeLine lim bufs buf src _

/-- What a turn at a body leaves behind. -/
theorem leaves_bodyTurn (buf : β)
    (h : (State.body subject reply hdr need hpub parts).Ready bufs) (src : Bytes) :
    (bodyTurn buf subject reply hdr need hpub parts src).Leaves bufs buf := by
  have hparts : parts.Hoisted := h.parts _ _ _ _ _ _ rfl
  have hwait : (State.body subject reply hdr need hpub
      (takeInto buf need parts src)).hoist.Hoisted (bufs ++ [buf]) :=
    hoisted_of_parts (hoisted_takeInto buf hparts need src) (bufs_takeInto buf h.bufs need src)
  -- a frame error ends the connection, with or without the header capability
  have hbad : ∀ st src', (Turn.ret st src' (Proto.hpubFrameError hpub).1
      (Proto.hpubFrameError hpub).2).Leaves bufs buf := by
    intro st src' hres hstops
    cases hpub with
    | false => cases hres
    | true => cases hstops
  simp only [bodyTurn]
  split
  · exact fun _ _ => hwait
  · split
    · exact fun _ _ => hwait
    · exact (State.hoisted_line bufs).toReady
    · exact hbad _ _
    · exact fun _ _ => hwait
    · exact hbad _ _

/-- **One turn.** -/
theorem leaves_turn (lim : Limits) (buf : β) {st : State β} (h : st.Ready bufs) (src : Bytes) :
    (turn lim buf st src).Leaves bufs buf := by
  cases st with
  | line => exact leaves_lineTurn lim bufs buf src
  | body subject reply hdr need hpub parts => exact leaves_bodyTurn buf h src

/-- One call, over the turns of its loop. -/
theorem hoisted_feedInto (lim : Limits) (buf : β) {st : State β} (h : st.Ready bufs)
    (src : Bytes) (out : List Event) (hres : (feedInto lim buf st src out).res = .ok ())
    (hstops : (feedInto lim buf st src out).out.any Proto.stops = false) :
    (feedInto lim buf st src out).state.Hoisted (bufs ++ [buf]) := by
  fun_induction feedInto lim buf st src out with
  | case1 st src out st' src' evs res hturn =>
      have hleaves := leaves_turn lim buf h src
      rw [hturn] at hleaves
      rw [List.any_append, Bool.or_eq_false_iff] at hstops
      exact hleaves hres hstops.2
  | case2 st src out st' src' evs hturn _ ih =>
      have hleaves := leaves_turn lim buf h src
      rw [hturn] at hleaves
      exact ih hleaves hres hstops

/-- All reads. -/
theorem hoisted_reads {lim : Limits} {st st' : State β} (h : st.Hoisted bufs)
    {src src' : Bytes} {segs : List (β × Bytes)}
    (hreads : reads lim st src segs = some (st', src')) :
    st'.Hoisted (bufs ++ segs.map Prod.fst) := by
  induction segs generalizing st src bufs with
  | nil =>
      cases hreads
      rwa [List.map_nil, List.append_nil]
  | cons read segs ih =>
      obtain ⟨buf, seg⟩ := read
      simp only [reads] at hreads
      split at hreads
      · cases hreads
      · rename_i hres
        split at hreads
        · cases hreads
        · rename_i hstops
          have hread := hoisted_feedInto lim buf h.toReady _ _ hres (Bool.eq_false_iff.mpr hstops)
          rw [List.map_cons, List.append_cons]
          exact ih hread hreads

end Leaves

/-- **What a read leaves in the buffers.**  Whatever has been read, however it was cut and into
whichever buffers, between two reads subject and reply of the publish that the parser waits for
are copies.  Of its body, which has come in pieces in the order of the reads, the third piece,
the fifth and so on are slices of the buffers they were read into, and all others are copies. -/
theorem views_of_reads {lim : Limits} {segs : List (β × Bytes)} {st : State β} {src : Bytes}
    (h : reads lim .line [] segs = some (st, src)) :
    (∀ p ∈ st.names, p.view = false) ∧
      st.pieces.map Piece.view = (List.range st.pieces.length).map stays ∧
      (st.pieces.map Piece.buf).Sublist (segs.map Prod.fst) := by
  have hhoisted := hoisted_reads (State.hoisted_line []) h
  refine ⟨hhoisted.names, ?_, hhoisted.bufs⟩
  cases st with
  | line => rfl
  | body subject reply hdr need hpub parts => exact (hhoisted.parts _ _ _ _ _ _ rfl).views

/-- A publish of five bytes, four of which have come one by one.  The third of them keeps the
buffer `1`, so the fourth was read into another one. -/
def fourReads : List (ℕ × Bytes) :=
  [(1, ascii "PUB a 5\r\nv"), (1, ascii "w"), (1, ascii "x"), (2, ascii "y")]

/-- Four pieces from two buffers, the third of which stays a view. -/
theorem views_of_four_pieces :
    ∃ st, reads Limits.default .line [] fourReads = some (st, []) ∧
      st.pieces.map Piece.buf = [1, 1, 1, 2] ∧
      st.pieces.map Piece.view = [false, false, true, false] := by
  have hbufs : (reads Limits.default .line [] fourReads).map
      (fun r => (r.1.pieces.map Piece.buf, r.2)) = some ([1, 1, 1, 2], []) := by decide +kernel
  obtain ⟨⟨st, src⟩, hreads, heq⟩ := Option.map_eq_some_iff.mp hbufs
  obtain ⟨hfour, rfl⟩ : st.pieces.map Piece.buf = [1, 1, 1, 2] ∧ src = [] := Prod.mk.inj heq
  have hlength : st.pieces.length = 4 := by simpa using congrArg List.length hfour
  refine ⟨st, hreads, hfour, ?_⟩
  rw [(views_of_reads hreads).2.1, hlength]
  decide

end NatsServer.Views
