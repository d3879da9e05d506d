/-
# CONNECT options

`Options::apply_connect`, `pack` and `unpack` of `client.rs`, with the JSON library given by
what it decodes a text to.  The shared state keeps `Options` and the coarse `Json` of a text;
here the values are those of `serde_json`, so that a value of the wrong type can be told
from an absent one, and `applyConnect_toJson` and `handleConnect_pack` connect the two.

* `get_applyAll`: over any sequence of CONNECTs an option is the last boolean an accepted one
  gave for its key.
* `connect_law_iff`: texts that cannot be read into the options are all rejected exactly when
  none of them is an object with a wrongly typed option.
-/
import NatsServer.Server

namespace NatsServer

open Proto

/-! ## JSON values -/

/-- `serde_json::Value`; an object is the list of its fields in the order of the text. -/
inductive Value where
  | null
  | bool (b : Bool)
  | number (text : Bytes)
  | string (text : Bytes)
  | array (items : List Value)
  | object (fields : List (Bytes × Value))

namespace Value

def asBool : Value → Option Bool
  | .bool b => some b
  | _ => none

def asObject : Value → Option (List (Bytes × Value))
  | .object fields => some fields
  | _ => none

/-- `obj.get(key)`: the last field of a name counts. -/
def get (fields : List (Bytes × Value)) (key : String) : Option Value :=
  (fields.reverse.find? fun f => f.1 == ascii key).map Prod.snd

/-- A boolean or null: what the reference can put into a field of its options. -/
def isFlag : Value → Bool
  | .null | .bool _ => true
  | _ => false

/-- What the shared state's model keeps of a value. -/
def toJson : Value → Json
  | .object fields => .object (fields.map fun f => (f.1, f.2.asBool))
  | _ => .other

/-- A boolean field is found through either view of the object. -/
theorem getBool_toJson (fields : List (Bytes × Value)) (key : String) :
    Json.getBool (fields.map fun f => (f.1, f.2.asBool)) key = (get fields key).bind asBool := by
  unfold Json.getBool get
  rw [← List.map_reverse, List.find?_map, Option.bind_map, Option.bind_map]
  rfl

end Value

/-! ## The five options -/

/-- The keys `apply_connect` looks for. -/
inductive Key where
  | verbose
  | pedantic
  | echo
  | headers
  | noResponders
  deriving DecidableEq

namespace Key

def name : Key → String
  | .verbose => "verbose"
  | .pedantic => "pedantic"
  | .echo => "echo"
  | .headers => "headers"
  | .noResponders => "no_responders"

/-- In the order of the loop. -/
def all : List Key := [.verbose, .pedantic, .echo, .headers, .noResponders]

theorem mem_all (k : Key) : k ∈ all := by
  cases k <;> decide

end Key

namespace Options

def get (o : Options) : Key → Bool
  | .verbose => o.verbose
  | .pedantic => o.pedantic
  | .echo => o.echo
  | .headers => o.headers
  | .noResponders => o.noResponders

def set (o : Options) (k : Key) (b : Bool) : Options :=
  match k with
  | .verbose => { o with verbose := b }
  | .pedantic => { o with pedantic := b }
  | .echo => { o with echo := b }
  | .headers => { o with headers := b }
  | .noResponders => { o with noResponders := b }

theorem get_set (o : Options) (k k' : Key) (b : Bool) :
    (o.set k b).get k' = if k' = k then b else o.get k' := by
  cases k <;> cases k' <;> rfl

/-- Options are determined by their values. -/
theorem ext_get {o o' : Options} (h : ∀ k, o.get k = o'.get k) : o = o' := by
  cases o
  cases o'
  congr 1
  · exact h .verbose
  · exact h .pedantic
  · exact h .echo
  · exact h .headers
  · exact h .noResponders

/-- One round of the loop of `apply_connect`. -/
def applyKey (fields : List (Bytes × Value)) (o : Options) (k : Key) : Options :=
  match Value.get fields k.name with
  | some v =>
      match v.asBool with
      | some b => o.set k b
      | none => o
  | none => o

/-- A field sets its option if it is a boolean, and leaves it otherwise. -/
theorem get_applyKey (fields : List (Bytes × Value)) (o : Options) (k k' : Key) :
    (applyKey fields o k).get k' =
      if k' = k then ((Value.get fields k.name).bind Value.asBool).getD (o.get k') else
        o.get k' := by
  unfold applyKey
  cases Value.get fields k.name with
  | none => exact (ite_self _).symm
  | some v =>
      cases hb : v.asBool with
      | none => simp [hb]
      | some b => simp [hb, get_set]

/-- The fields set the options whose keys are looked up. -/
theorem get_foldl_applyKey (fields : List (Bytes × Value)) (keys : List Key) (o : Options)
    (k : Key) :
    (keys.foldl (applyKey fields) o).get k =
      if k ∈ keys then ((Value.get fields k.name).bind Value.asBool).getD (o.get k) else
        o.get k := by
  induction keys generalizing o with
  | nil => rfl
  | cons k' keys ih =>
      rw [List.foldl_cons, ih, get_applyKey]
      by_cases hk : k = k'
      · subst hk
        simp only [if_true, List.mem_cons, true_or]
        -- a second round for the same key finds the same value
        cases (Value.get fields k.name).bind Value.asBool <;> simp
      · simp [hk]

/-- The five flags as one word. -/
def pack (o : Options) : UInt64 :=
  o.verbose.toUInt64 ||| o.pedantic.toUInt64 <<< 1 ||| o.echo.toUInt64 <<< 2 |||
    o.headers.toUInt64 <<< 3 ||| o.noResponders.toUInt64 <<< 4

def unpack (word : UInt64) : Options where
  verbose := word &&& 1 != 0
  pedantic := word &&& 2 != 0
  echo := word &&& 4 != 0
  headers := word &&& 8 != 0
  noResponders := word &&& 16 != 0

/-- The word loses nothing. -/
theorem unpack_pack (o : Options) : unpack o.pack = o := by
  obtain ⟨verbose, pedantic, echo, headers, noResponders⟩ := o
  revert verbose pedantic echo headers noResponders
  decide

end Options

/-! ## One CONNECT -/

section Connects

variable (fromSlice : Bytes → Option Value)

/-- `apply_connect`: the options after it, and what it returns. -/
def applyConnect (self : Options) (json : Bytes) : Options × Bool :=
  match fromSlice json with
  | none => (self, false)
  | some value =>
      match value.asObject with
      | none => (self, false)
      | some obj => (Key.all.foldl (Options.applyKey obj) self, true)

/-- The CONNECT arm of `handle`, on the word that `Conn` keeps; `none` ends the connection. -/
def handleConnect (word : UInt64) (json : Bytes) : Option UInt64 :=
  let (opts, ok) := applyConnect fromSlice (Options.unpack word) json
  if !ok then none else some opts.pack

/-- Apply one text after another: the options at the end, and what each call returned. -/
def applyAll (self : Options) : List Bytes → Options × List Bool
  | [] => (self, [])
  | json :: rest =>
      let (opts, ok) := applyConnect fromSlice self json
      let (last, oks) := applyAll opts rest
      (last, ok :: oks)

/-- The boolean a text gives for an option. -/
def given (k : Key) (json : Bytes) : Option Bool :=
  ((fromSlice json).bind Value.asObject).bind fun obj =>
    (Value.get obj k.name).bind Value.asBool

/-- The last boolean given for an option by an accepted text. -/
def lastGiven (k : Key) (calls : List (Bytes × Bool)) : Option Bool :=
  (calls.reverse.filter Prod.snd).findSome? fun call => given fromSlice k call.1

/-- The text is not an object, or one of the five keys has a value that is neither a boolean
nor null: it cannot be read into the options. -/
def Unreadable (json : Bytes) : Prop :=
  ∀ obj, (fromSlice json).bind Value.asObject = some obj →
    ∃ k v, Value.get obj (Key.name k) = some v ∧ v.isFlag = false

/-- The text is an object in which one of the five keys has such a value. -/
def Mistyped (json : Bytes) : Prop :=
  ∃ obj, (fromSlice json).bind Value.asObject = some obj ∧
    ∃ k v, Value.get obj (Key.name k) = some v ∧ v.isFlag = false

variable {fromSlice}

/-- An object sets the options, and anything else is refused. -/
theorem applyConnect_eq (self : Options) (json : Bytes) :
    applyConnect fromSlice self json =
      match (fromSlice json).bind Value.asObject with
      | none => (self, false)
      | some obj => (Key.all.foldl (Options.applyKey obj) self, true) := by
  unfold applyConnect
  cases fromSlice json with
  | none => rfl
  | some value => rfl

/-- **One CONNECT.**  An option becomes the boolean given for it by an accepted text. -/
theorem get_applyConnect (self : Options) (json : Bytes) (k : Key) :
    (applyConnect fromSlice self json).1.get k =
      (if (applyConnect fromSlice self json).2 then given fromSlice k json else none).getD
        (self.get k) := by
  rw [applyConnect_eq, given]
  cases (fromSlice json).bind Value.asObject with
  | none => rfl
  | some obj =>
      simp only [if_true, Option.bind_some]
      rw [Options.get_foldl_applyKey, if_pos k.mem_all]

/-- The shared state's model of `apply_connect` is this one on what it keeps of the text. -/
theorem applyConnect_toJson (self : Options) (json : Bytes) :
    self.applyConnect ((fromSlice json).map Value.toJson) =
      if (applyConnect fromSlice self json).2 then some (applyConnect fromSlice self json).1
        else none := by
  rw [applyConnect_eq]
  cases fromSlice json with
  | none => rfl
  | some value =>
      cases value with
      | object fields =>
          simp only [Option.bind_some, Value.asObject, if_true]
          refine congrArg some (Options.ext_get fun k => ?_)
          rw [Options.get_foldl_applyKey, if_pos k.mem_all, ← Value.getBool_toJson]
          cases k <;> rfl
      | _ => rfl

/-- The word of a connection follows its options. -/
theorem handleConnect_pack (opts : Options) (json : Bytes) :
    handleConnect fromSlice opts.pack json =
      (opts.applyConnect ((fromSlice json).map Value.toJson)).map Options.pack := by
  rw [applyConnect_toJson, handleConnect, Options.unpack_pack]
  cases hok : (applyConnect fromSlice opts json).2 <;> simp [hok]

/-! ## Any sequence of CONNECTs -/

/-- A call counts unless a later one gives the option again. -/
theorem lastGiven_cons (k : Key) (json : Bytes) (ok : Bool) (calls : List (Bytes × Bool)) :
    lastGiven fromSlice k ((json, ok) :: calls) =
      (lastGiven fromSlice k calls).or (if ok then given fromSlice k json else none) := by
  unfold lastGiven
  rw [List.reverse_cons, List.filter_append, List.findSome?_append]
  cases ok with
  | false => rfl
  | true => simp

/-- **Every sequence.**  Each option is the last boolean given for it by an accepted text, or
what it was before all of them. -/
theorem get_applyAll (self : Options) (texts : List Bytes) (k : Key) :
    (applyAll fromSlice self texts).1.get k =
      (lastGiven fromSlice k (texts.zip (applyAll fromSlice self texts).2)).getD (self.get k) := by
  induction texts generalizing self with
  | nil => rfl
  | cons json rest ih =>
      simp only [applyAll, List.zip_cons_cons, lastGiven_cons]
      rw [ih, get_applyConnect, Option.getD_or]

/-- A text that cannot be read is rejected, unless it is an object. -/
theorem rejected_iff_of_unreadable {self : Options} {json : Bytes}
    (h : Unreadable fromSlice json) :
    applyConnect fromSlice self json = (self, false) ↔ ¬ Mistyped fromSlice json := by
  rw [applyConnect_eq]
  unfold Mistyped
  cases hobj : (fromSlice json).bind Value.asObject with
  | none => simp
  | some obj => simp [h obj hobj]

/-- An object with a field of the wrong type counts as unreadable. -/
theorem Mistyped.unreadable {json : Bytes} (h : Mistyped fromSlice json) :
    Unreadable fromSlice json := by
  obtain ⟨obj, hobj, hbad⟩ := h
  intro obj' hobj'
  rw [hobj] at hobj'
  cases hobj'
  exact hbad

/-- **The law of CONNECT.**  Over any sequence of texts, from the defaults: each option is the
last boolean given for it by an accepted text, or its default, and every text that cannot be
read into the options is rejected and changes none, exactly when no text is an object in which
one of the five keys has a value that is neither a boolean nor null. -/
theorem connect_law_iff (fromSlice : Bytes → Option Value) (texts : List Bytes) :
    ((∀ k, (applyAll fromSlice {} texts).1.get k =
        (lastGiven fromSlice k (texts.zip (applyAll fromSlice {} texts).2)).getD
          (Options.get {} k)) ∧
      ∀ pre json post, texts = pre ++ json :: post → Unreadable fromSlice json →
        applyConnect fromSlice (applyAll fromSlice {} pre).1 json =
          ((applyAll fromSlice {} pre).1, false)) ↔
      ∀ json ∈ texts, ¬ Mistyped fromSlice json := by
  -- the first half holds of every sequence; only the rejections depend on the texts
  rw [and_iff_right (get_applyAll {} texts)]
  constructor
  · intro h json hjson hbad
    obtain ⟨pre, post, hsplit⟩ := List.append_of_mem hjson
    exact (rejected_iff_of_unreadable hbad.unreadable).mp (h pre json post hsplit hbad.unreadable)
      hbad
  · rintro h pre json post rfl hread
    exact (rejected_iff_of_unreadable hread).mpr (h json (by simp))

end Connects

/-- The decoding of one text: `verbose` under a number. -/
def fromSliceSample (json : Bytes) : Option Value :=
  if json = ascii "\x7b\"verbose\":5\x7d" then
    some (.object [(ascii "verbose", .number (ascii "5"))])
  else none

/-- A number for `verbose` cannot be read into the options; the text is accepted and the
default stays. -/
theorem connect_accepts_number :
    Unreadable fromSliceSample (ascii "\x7b\"verbose\":5\x7d") ∧
      applyConnect fromSliceSample {} (ascii "\x7b\"verbose\":5\x7d") = ({}, true) := by
  refine ⟨fun obj hobj => ⟨.verbose, .number (ascii "5"), ?_, rfl⟩, by decide +kernel⟩
  have hsample : fromSliceSample (ascii "\x7b\"verbose\":5\x7d") =
      some (.object [(ascii "verbose", .number (ascii "5"))]) := if_pos rfl
  rw [hsample] at hobj
  cases hobj
  rfl

end NatsServer
