/-
# The command line

`parse_args` and `apply_flags` of `config.rs`, and `run` of `main.rs` up to the point where the
server starts.  A command line is accepted if and only if it is a sequence of flags, each in one
of its spellings, up to the end or to the first word that is no flag (`parseArgs_eq_ok_iff`).  A
value stands in a word of its own, or behind `=` if the flag is spelled with two hyphens; a
switch is on whatever stands behind its `=`.

A server that starts has, for each option, the value of the last flag that sets it, or else of
the last line of the configuration file that does, or else the default (`serve_of_run`).
-/
import NatsServer.ConfigFile

namespace NatsServer.Flags

open Str

/-! ## Arguments -/

/-- What the command line said. -/
structure Args where
  configFile : Option Text := none
  testConfig : Bool := false
  version : Bool := false
  help : Bool := false
  host : Option Text := none
  port : Option Int32 := none
  portsFileDir : Option Text := none
  serverName : Option Text := none
  debug : Bool := false
  trace : Bool := false
  deriving DecidableEq

/-- The flags that take a value. -/
inductive Opt where
  | host | port | serverName | configFile | portsFileDir
  deriving DecidableEq

/-- The flags that do not. -/
inductive Switch where
  | testConfig | version | help | debug | trace
  deriving DecidableEq

inductive Flag where
  | value (o : Opt)
  | switch (s : Switch)
  deriving DecidableEq

def Flag.ofText (name : Text) : Option Flag :=
  match String.ofList name with
  | "-a" | "--addr" | "--net" => some (.value .host)
  | "-p" | "--port" => some (.value .port)
  | "-n" | "--name" | "--server_name" => some (.value .serverName)
  | "-c" | "--config" => some (.value .configFile)
  | "--ports_file_dir" => some (.value .portsFileDir)
  | "-t" => some (.switch .testConfig)
  | "-v" | "--version" => some (.switch .version)
  | "-h" | "--help" => some (.switch .help)
  | "-D" | "--debug" => some (.switch .debug)
  | "-V" | "--trace" => some (.switch .trace)
  | _ => none

/-- Why a command line is refused. -/
inductive Error where
  | needsArgument (name : Text)
  | invalidPort (value : Text)
  | notDefined (name : Text)
  deriving DecidableEq

def Error.message (program : String) : Error → String
  | .needsArgument name => program ++ ": flag needs an argument: " ++ String.ofList name
  | .invalidPort value =>
      program ++ ": invalid value \"" ++ String.ofList value ++ "\" for flag -p: parse error"
  | .notDefined name => program ++ ": flag provided but not defined: " ++ String.ofList name

/-- `i32::from_str`. -/
def parseInt32 (s : Text) : Option Int32 :=
  match signed 10 s with
  | some n => if -2 ^ 31 ≤ n ∧ n < 2 ^ 31 then some (Int32.ofInt n) else none
  | none => none

def Opt.Value : Opt → Type
  | .port => Int32
  | .host | .serverName | .configFile | .portsFileDir => Text

/-- The value that a text stands for. -/
def Opt.read : (o : Opt) → Text → Except Error o.Value
  | .port, v =>
      match parseInt32 v with
      | some p => .ok p
      | none => .error (.invalidPort v)
  | .host, v | .serverName, v | .configFile, v | .portsFileDir, v => .ok v

def Args.get (args : Args) : (o : Opt) → Option o.Value
  | .host => args.host
  | .port => args.port
  | .serverName => args.serverName
  | .configFile => args.configFile
  | .portsFileDir => args.portsFileDir

def Args.put (args : Args) : (o : Opt) → o.Value → Args
  | .host, x => { args with host := some x }
  | .port, x => { args with port := some x }
  | .serverName, x => { args with serverName := some x }
  | .configFile, x => { args with configFile := some x }
  | .portsFileDir, x => { args with portsFileDir := some x }

def Args.isOn (args : Args) : Switch → Bool
  | .testConfig => args.testConfig
  | .version => args.version
  | .help => args.help
  | .debug => args.debug
  | .trace => args.trace

def Args.turnOn (args : Args) : Switch → Args
  | .testConfig => { args with testConfig := true }
  | .version => { args with version := true }
  | .help => { args with help := true }
  | .debug => { args with debug := true }
  | .trace => { args with trace := true }

/-! ## The loop -/

/-- A word that is no flag: the loop stops there. -/
def stops (arg : Text) : Bool := arg.isEmpty || arg.head? != some '-' || arg == ['-']

def isLong (name : Text) : Bool := ['-', '-'].isPrefixOf name

/-- The name of a flag, and its value if that stands behind `=`. -/
def splitName (arg : Text) : Text × Option Text :=
  match splitOnce '=' arg with
  | some (name, value) => if isLong name then (name, some value) else (arg, none)
  | none => (arg, none)

/-- The loop of `parse_args`. -/
def parseFrom (out : Args) : List Text → Except Error Args
  | [] => .ok out
  | arg :: argv =>
      if stops arg then .ok out
      else
        match Flag.ofText (splitName arg).1 with
        | none => .error (.notDefined (splitName arg).1)
        | some (.switch s) => parseFrom (out.turnOn s) argv
        | some (.value o) =>
            match (splitName arg).2 with
            | some v =>
                match o.read v with
                | .ok x => parseFrom (out.put o x) argv
                | .error e => .error e
            | none =>
                -- the value is the next word, whatever it looks like
                match argv with
                | [] => .error (.needsArgument (splitName arg).1)
                | v :: argv =>
                    match o.read v with
                    | .ok x => parseFrom (out.put o x) argv
                    | .error e => .error e

/-- `parse_args`. -/
def parseArgs (argv : List Text) : Except Error Args := parseFrom {} argv

/-! ## The grammar -/

/-- A flag as it is written. -/
inductive Item where
  /-- The value in a word of its own. -/
  | apart (o : Opt) (name value : Text)
  /-- The value behind `=`. -/
  | joined (o : Opt) (name value : Text)
  /-- What stands behind `=` is not looked at. -/
  | switch (s : Switch) (name : Text) (ignored : Option Text)

namespace Item

def words : Item → List Text
  | apart _ name value => [name, value]
  | joined _ name value => [name ++ '=' :: value]
  | switch _ name none => [name]
  | switch _ name (some value) => [name ++ '=' :: value]

/-- It has a name of the flag, and a value that the flag can take. -/
def Ok : Item → Prop
  | apart o name value => Flag.ofText name = some (.value o) ∧ ∃ x, o.read value = .ok x
  | joined o name value =>
      isLong name = true ∧ Flag.ofText name = some (.value o) ∧ ∃ x, o.read value = .ok x
  | switch s name ignored =>
      Flag.ofText name = some (.switch s) ∧ (ignored ≠ none → isLong name = true)

/-- The text that it gives to an option. -/
def gives (o : Opt) : Item → Option Text
  | apart o' _ value | joined o' _ value => if o' = o then some value else none
  | switch _ _ _ => none

def isSwitch (s : Switch) : Item → Bool
  | switch s' _ _ => s' == s
  | _ => false

end Item

/-- What is known after one more flag. -/
def Args.apply (args : Args) : Item → Args
  | .apart o _ value | .joined o _ value =>
      match o.read value with
      | .ok x => args.put o x
      | .error _ => args
  | .switch s _ _ => args.turnOn s

/-- The flags end here. -/
def Ends (rest : List Text) : Prop := ∀ arg ∈ rest.head?, stops arg = true

/-- A name begins with a hyphen, is not just that, and has no `=` in it. -/
theorem name_of_ofText {name : Text} {f : Flag} (h : Flag.ofText name = some f) :
    stops name = false ∧ '=' ∉ name := by
  have hname : name = (String.ofList name).toList := String.toList_ofList.symm
  unfold Flag.ofText at h
  split at h
  all_goals first
    | (rename_i heq
       rw [hname, heq]
       decide)
    | cases h

/-- A name without an equals sign has no value attached. -/
theorem splitName_of_notMem {name : Text} (h : '=' ∉ name) : splitName name = (name, none) := by
  have hnone : splitOnce '=' name = none := by
    rw [Option.eq_none_iff_forall_ne_some]
    rintro ⟨x, y⟩ hsome
    obtain ⟨rfl, -⟩ := splitOnce_eq_some_iff.mp hsome
    exact h (List.mem_append_right _ List.mem_cons_self)
  rw [splitName, hnone]

/-- A long name and its value are taken apart at the equals sign. -/
theorem splitName_joined {name : Text} (h : '=' ∉ name) (hlong : isLong name = true)
    (value : Text) : splitName (name ++ '=' :: value) = (name, some value) := by
  rw [splitName, splitOnce_eq_some_iff.mpr ⟨rfl, h⟩]
  simp only [hlong, if_true]

/-- An argument is taken apart at an equals sign or not at all. -/
theorem splitName_cases (arg : Text) :
    splitName arg = (arg, none) ∨ ∃ name value, splitName arg = (name, some value) ∧
      arg = name ++ '=' :: value ∧ isLong name = true := by
  unfold splitName
  cases hsplit : splitOnce '=' arg with
  | none => exact Or.inl rfl
  | some p =>
      obtain ⟨name, value⟩ := p
      by_cases hlong : isLong name = true
      · exact Or.inr ⟨name, value, by simp [hlong], (splitOnce_eq_some_iff.mp hsplit).1, hlong⟩
      · exact Or.inl (by simp [hlong])

/-- A value behind a name does not make it an argument at which parsing stops. -/
theorem stops_append {name : Text} (h : stops name = false) (value : Text) :
    stops (name ++ '=' :: value) = false := by
  cases name with
  | nil => cases h
  | cons c name =>
      simp only [stops, List.isEmpty_cons, Bool.false_or, List.head?_cons, List.cons_append,
        Bool.or_eq_false_iff, beq_eq_false_iff_ne] at h ⊢
      exact ⟨h.1, by simp⟩

/-- A flag in front of anything. -/
theorem parseFrom_words {item : Item} (h : item.Ok) (out : Args) (rest : List Text) :
    parseFrom out (item.words ++ rest) = parseFrom (out.apply item) rest := by
  cases item with
  | apart o name value =>
      obtain ⟨hflag, x, hx⟩ := h
      obtain ⟨hstop, heq⟩ := name_of_ofText hflag
      simp [Item.words, parseFrom, hstop, splitName_of_notMem heq, hflag, Args.apply, hx]
  | joined o name value =>
      obtain ⟨hlong, hflag, x, hx⟩ := h
      obtain ⟨hstop, heq⟩ := name_of_ofText hflag
      simp [Item.words, parseFrom, stops_append hstop, splitName_joined heq hlong, hflag,
        Args.apply, hx]
  | switch s name ignored =>
      obtain ⟨hflag, hlong⟩ := h
      obtain ⟨hstop, heq⟩ := name_of_ofText hflag
      cases ignored with
      | none =>
          simp [Item.words, parseFrom, hstop, splitName_of_notMem heq, hflag, Args.apply]
      | some value =>
          simp [Item.words, parseFrom, stops_append hstop,
            splitName_joined heq (hlong (by simp)), hflag, Args.apply]

/-- Items at the front are applied one after the other. -/
theorem parseFrom_flatMap {items : List Item} (h : ∀ item ∈ items, item.Ok) (out : Args)
    (rest : List Text) :
    parseFrom out (items.flatMap Item.words ++ rest) =
      parseFrom (items.foldl Args.apply out) rest := by
  induction items generalizing out with
  | nil => rfl
  | cons item items ih =>
      rw [List.flatMap_cons, List.append_assoc, parseFrom_words (h item List.mem_cons_self),
        ih (fun i hi => h i (List.mem_cons_of_mem _ hi)), List.foldl_cons]

/-- Where the arguments end the result stands. -/
theorem parseFrom_of_ends {rest : List Text} (h : Ends rest) (out : Args) :
    parseFrom out rest = .ok out := by
  cases rest with
  | nil => rfl
  | cons arg argv => simp [parseFrom, h arg rfl]

/-- The words are flags up to where they end, and this is what they say. -/
def Parsed (out : Args) (argv : List Text) (out' : Args) : Prop :=
  ∃ (items : List Item) (rest : List Text), (∀ item ∈ items, item.Ok) ∧ Ends rest ∧
    argv = items.flatMap Item.words ++ rest ∧ out' = items.foldl Args.apply out

/-- An item in front of what was parsed is applied first. -/
theorem Parsed.cons {out out' : Args} {argv : List Text} (item : Item) (hok : item.Ok)
    (h : Parsed (out.apply item) argv out') : Parsed out (item.words ++ argv) out' := by
  obtain ⟨items, rest, hitems, hends, rfl, rfl⟩ := h
  exact ⟨item :: items, rest, List.forall_mem_cons.mpr ⟨hok, hitems⟩, hends,
    by rw [List.flatMap_cons, List.append_assoc], rfl⟩

/-- What `parse_from` accepts is made up of items. -/
theorem parsed_of_parseFrom {out out' : Args} {argv : List Text}
    (h : parseFrom out argv = .ok out') : Parsed out argv out' := by
  -- the cases are the paths through one turn of the loop
  fun_induction parseFrom out argv with
  | case1 out =>
      cases h
      exact ⟨[], [], by simp, (fun arg h => by cases h), rfl, rfl⟩
  | case2 out arg argv hstop =>
      cases h
      exact ⟨[], arg :: argv, by simp, (fun a ha => by cases ha; exact hstop), rfl, rfl⟩
  | case3 out arg argv hstop hflag => cases h
  | case4 out arg argv hstop s hflag ih =>
      rcases splitName_cases arg with hsplit | ⟨name, value, hsplit, rfl, hlong⟩
      · rw [hsplit] at hflag
        exact Parsed.cons (.switch s arg none) ⟨hflag, fun h => absurd rfl h⟩ (ih h)
      · rw [hsplit] at hflag
        exact Parsed.cons (.switch s name (some value)) ⟨hflag, fun _ => hlong⟩ (ih h)
  | case5 out arg argv hstop o hflag v hinline x hx ih =>
      rcases splitName_cases arg with hsplit | ⟨name, value, hsplit, rfl, hlong⟩
      · rw [hsplit] at hinline
        cases hinline
      · rw [hsplit] at hflag hinline
        cases hinline
        refine Parsed.cons (.joined o name v) ⟨hlong, hflag, x, hx⟩ ?_
        rw [Args.apply, hx]
        exact ih h
  | case6 out arg argv hstop o hflag v hinline e he => cases h
  | case7 out arg hstop o hflag hinline => cases h
  | case8 out arg hstop o hflag hinline v argv x hx ih =>
      rcases splitName_cases arg with hsplit | ⟨name, value, hsplit, rfl, hlong⟩
      · rw [hsplit] at hflag
        refine Parsed.cons (.apart o arg v) ⟨hflag, x, hx⟩ ?_
        rw [Args.apply, hx]
        exact ih h
      · rw [hsplit] at hinline
        cases hinline
  | case9 out arg hstop o hflag hinline v argv e he => cases h

/-- **The command lines that are accepted**, and what they say. -/
theorem parseArgs_eq_ok_iff {argv : List Text} {args : Args} :
    parseArgs argv = .ok args ↔ Parsed {} argv args := by
  constructor
  · exact parsed_of_parseFrom
  · rintro ⟨items, rest, hitems, hends, rfl, rfl⟩
    rw [parseArgs, parseFrom_flatMap hitems, parseFrom_of_ends hends]

/-! ## The last flag counts -/

theorem get_put (args : Args) (o : Opt) (x : o.Value) : (args.put o x).get o = some x := by
  cases o <;> rfl

theorem get_put_of_ne {o o' : Opt} (h : o ≠ o') (args : Args) (x : o.Value) :
    (args.put o x).get o' = args.get o' := by
  cases o <;> cases o' <;> first | rfl | exact absurd rfl h

theorem get_turnOn (args : Args) (s : Switch) (o : Opt) : (args.turnOn s).get o = args.get o := by
  cases s <;> cases o <;> rfl

theorem isOn_put (args : Args) (o : Opt) (x : o.Value) (s : Switch) :
    (args.put o x).isOn s = args.isOn s := by
  cases o <;> cases s <;> rfl

theorem isOn_turnOn (args : Args) (s s' : Switch) :
    (args.turnOn s).isOn s' = (args.isOn s' || s == s') := by
  cases s <;> cases s' <;> simp [Args.turnOn, Args.isOn]

/-- The text that the last flag of an option gives. -/
def lastGiven (o : Opt) (items : List Item) : Option Text := items.reverse.findSome? (Item.gives o)

/-- What is known of an option: read from what was given last, or nothing. -/
def Holds {α : Type} (read : Text → Except Error α) (x : Option α) : Option Text → Prop
  | none => x = none
  | some v => ∃ y, read v = .ok y ∧ x = some y

/-- A field that stores the text stores it as it is. -/
theorem Holds.eq {x given : Option Text} (h : Holds .ok x given) : x = given := by
  cases given with
  | none => exact h
  | some v =>
      obtain ⟨y, hy, rfl⟩ := h
      rw [Except.ok.inj hy]

/-- One item keeps every field in step with what was given for it. -/
theorem holds_apply {o : Opt} {args : Args} {given : Option Text}
    (h : Holds o.read (args.get o) given) {item : Item} (hok : item.Ok) :
    Holds o.read ((args.apply item).get o) ((item.gives o).or given) := by
  have hvalue : ∀ (o' : Opt) (v : Text), (∃ x, o'.read v = .ok x) →
      Holds o.read (((match o'.read v with
        | .ok x => args.put o' x
        | .error _ => args) : Args).get o) ((if o' = o then some v else none).or given) := by
    rintro o' v ⟨x, hx⟩
    rw [hx]
    by_cases ho : o' = o
    · subst ho
      rw [if_pos rfl]
      exact ⟨x, hx, get_put args o' x⟩
    · rw [if_neg ho]
      simp only [get_put_of_ne ho, Option.none_or]
      exact h
  cases item with
  | apart o' name v => exact hvalue o' v hok.2
  | joined o' name v => exact hvalue o' v hok.2.2
  | switch s name ignored =>
      rw [Args.apply, get_turnOn]
      exact h

/-- **The last flag that gives an option a value counts.** -/
theorem holds_foldl {items : List Item} (h : ∀ item ∈ items, item.Ok) (o : Opt) :
    Holds o.read ((items.foldl Args.apply {}).get o) (lastGiven o items) := by
  -- from the right, because the last one counts
  induction items using List.reverseRecOn with
  | nil => cases o <;> rfl
  | append_singleton items item ih =>
      rw [List.foldl_append, lastGiven, ConfigFile.findSome?_reverse_concat]
      exact holds_apply (ih fun i hi => h i (List.mem_append_left _ hi))
        (h item (List.mem_append_right _ List.mem_cons_self))

/-- A switch is on if it is given anywhere. -/
theorem isOn_foldl {items : List Item} (h : ∀ item ∈ items, item.Ok) (s : Switch) (out : Args) :
    (items.foldl Args.apply out).isOn s = (out.isOn s || items.any (Item.isSwitch s)) := by
  induction items generalizing out with
  | nil => simp
  | cons item items ih =>
      rw [List.foldl_cons, ih (fun i hi => h i (List.mem_cons_of_mem _ hi)), List.any_cons,
        ← Bool.or_assoc]
      congr 1
      cases item with
      | apart o name v =>
          obtain ⟨-, x, hx⟩ := h _ List.mem_cons_self
          simp [Args.apply, hx, isOn_put, Item.isSwitch]
      | joined o name v =>
          obtain ⟨-, -, x, hx⟩ := h _ List.mem_cons_self
          simp [Args.apply, hx, isOn_put, Item.isSwitch]
      | switch s' name ignored => rw [Args.apply, isOn_turnOn, Item.isSwitch]

/-! ## Starting up -/

/-- The options of a server: what a file can set, and the directory of the ports file. -/
structure Setup where
  cfg : ConfigFile.Config := {}
  portsFileDir : Option Text := none
  deriving DecidableEq

/-- `apply_flags`. -/
def applyFlags (setup : Setup) (args : Args) : Setup where
  cfg := { setup.cfg with
    host := args.host.getD setup.cfg.host
    port := args.port.getD setup.cfg.port
    serverName := args.serverName.or setup.cfg.serverName
    debug := setup.cfg.debug || args.debug
    trace := setup.cfg.trace || args.trace }
  portsFileDir := args.portsFileDir.or setup.portsFileDir

/-- How `run` goes on after it has looked at its arguments. -/
inductive Outcome where
  /-- The error goes to stderr and the usage to stdout. -/
  | usage (e : Error)
  | version
  | help
  | unreadable (path : Text)
  | badFile (e : ConfigFile.Error)
  | invalid (message : String)
  /-- `configuration OK` -/
  | tested
  | serve (setup : Setup)
  deriving DecidableEq

/-- The configuration file of `run`, for a file system that says what is in a file. -/
def loadConfig (readFile : Text → Option Text) (args : Args) :
    Except Outcome ConfigFile.Progress :=
  match args.configFile with
  | none => .ok ({}, [])
  | some path =>
      match readFile path with
      | none => .error (.unreadable path)
      | some text =>
          match ConfigFile.parseConfig text with
          | .error e => .error (.badFile e)
          | .ok p => .ok p

/-- `run`.  The second component is what is printed for the warnings. -/
def run (readFile : Text → Option Text) (argv : List Text) : Outcome × List String :=
  match parseArgs argv with
  | .error e => (.usage e, [])
  | .ok args =>
      if args.version then (.version, [])
      else if args.help then (.help, [])
      else
        match loadConfig readFile args with
        | .error outcome => (outcome, [])
        | .ok (cfg, warnings) =>
            match (applyFlags { cfg } args).cfg.validate with
            | .error message => (.invalid message, warnings)
            | .ok () =>
                (if args.testConfig then .tested else .serve (applyFlags { cfg } args), warnings)

/-- The lines of the configuration file. -/
def FileLines (readFile : Text → Option Text) (items : List Item) (ls : List Text) : Prop :=
  match lastGiven .configFile items with
  | none => ls = []
  | some path => ∃ text, readFile path = some text ∧ ls = lines text

/-- Where the options of a server come from. -/
structure Decided (items : List Item) (ls : List Text) (setup : Setup) : Prop where
  host : lastGiven .host items = some setup.cfg.host ∨ lastGiven .host items = none ∧
    ConfigFile.Leaves .host setup.cfg.host (ConfigFile.lastGiven .host ls)
  port : (∃ v, lastGiven .port items = some v ∧ parseInt32 v = some setup.cfg.port) ∨
    lastGiven .port items = none ∧
      ConfigFile.Leaves .port setup.cfg.port (ConfigFile.lastGiven .port ls)
  serverName : (∃ v, lastGiven .serverName items = some v ∧ setup.cfg.serverName = some v) ∨
    lastGiven .serverName items = none ∧
      ConfigFile.Leaves .serverName setup.cfg.serverName (ConfigFile.lastGiven .serverName ls)
  debug : ∃ b, ConfigFile.Leaves .debug b (ConfigFile.lastGiven .debug ls) ∧
    setup.cfg.debug = (b || items.any (Item.isSwitch .debug))
  trace : ∃ b, ConfigFile.Leaves .trace b (ConfigFile.lastGiven .trace ls) ∧
    setup.cfg.trace = (b || items.any (Item.isSwitch .trace))
  portsFileDir : setup.portsFileDir = lastGiven .portsFileDir items
  others : ∀ k : ConfigFile.Key, k ≠ .host → k ≠ .port → k ≠ .serverName → k ≠ .debug →
    k ≠ .trace →
    ConfigFile.Leaves k (setup.cfg.get k) (ConfigFile.lastGiven k ls)

/-- The file, after the flags. -/
theorem decided_applyFlags {items : List Item} (hitems : ∀ item ∈ items, item.Ok)
    {ls : List Text} {cfg : ConfigFile.Config}
    (hfile : ∀ k, ConfigFile.Leaves k (cfg.get k) (ConfigFile.lastGiven k ls)) :
    Decided items ls (applyFlags { cfg } (items.foldl Args.apply {})) := by
  have hholds := holds_foldl hitems
  have hon := fun s => isOn_foldl hitems s {}
  generalize items.foldl Args.apply {} = args at *
  have hhost : args.host = lastGiven .host items := (hholds .host).eq
  have hname : args.serverName = lastGiven .serverName items := (hholds .serverName).eq
  have hdir : args.portsFileDir = lastGiven .portsFileDir items := (hholds .portsFileDir).eq
  constructor
  · rw [applyFlags, hhost]
    cases lastGiven .host items with
    | none => exact Or.inr ⟨rfl, hfile .host⟩
    | some v => exact Or.inl rfl
  · have hport : Holds (Opt.read .port) args.port (lastGiven .port items) := hholds .port
    cases hlast : lastGiven .port items with
    | none =>
        rw [hlast] at hport
        refine Or.inr ⟨rfl, ?_⟩
        rw [applyFlags, show args.port = none from hport]
        exact hfile .port
    | some v =>
        rw [hlast] at hport
        obtain ⟨y, hy, hx⟩ := hport
        refine Or.inl ⟨v, rfl, ?_⟩
        rw [applyFlags, hx]
        rw [Opt.read] at hy
        cases hparse : parseInt32 v with
        | none =>
            rw [hparse] at hy
            cases hy
        | some p =>
            rw [hparse] at hy
            cases hy
            rfl
  · rw [applyFlags, hname]
    cases lastGiven .serverName items with
    | none => exact Or.inr ⟨rfl, hfile .serverName⟩
    | some v => exact Or.inl ⟨v, rfl, rfl⟩
  · exact ⟨cfg.debug, hfile .debug, congrArg (cfg.debug || ·) (hon .debug)⟩
  · exact ⟨cfg.trace, hfile .trace, congrArg (cfg.trace || ·) (hon .trace)⟩
  · rw [applyFlags, hdir, Option.or_none]
  · intro k hhost hport hname hdebug htrace
    have hsame : (applyFlags { cfg } args).cfg.get k = cfg.get k := by
      cases k <;> first | rfl | exact absurd rfl ‹_›
    rw [hsame]
    exact hfile k

/-- What is loaded leaves every option as the lines of the file say. -/
theorem leaves_of_loadConfig {readFile : Text → Option Text} {items : List Item}
    (hitems : ∀ item ∈ items, item.Ok) {cfg : ConfigFile.Config} {warnings : List String}
    (h : loadConfig readFile (items.foldl Args.apply {}) = .ok (cfg, warnings)) :
    ∃ ls, FileLines readFile items ls ∧
      ∀ k, ConfigFile.Leaves k (cfg.get k) (ConfigFile.lastGiven k ls) := by
  have hname : (items.foldl Args.apply {}).configFile = lastGiven .configFile items :=
    (holds_foldl hitems .configFile).eq
  rw [loadConfig, hname] at h
  unfold FileLines
  cases hpath : lastGiven .configFile items with
  | none =>
      rw [hpath] at h
      cases h
      exact ⟨[], rfl, fun k => ConfigFile.leaves_of_parseLines rfl k⟩
  | some path =>
      simp only [hpath] at h
      split at h
      · cases h
      rename_i text htext
      split at h
      · cases h
      rename_i p hparse
      cases h
      exact ⟨lines text, ⟨text, htext, rfl⟩, ConfigFile.leaves_of_parseLines hparse⟩

/-- **The options of a server that starts.**  The command line is a sequence of flags; each
option has the value of its last flag, or else of the last line that sets it in the file that
the last `-c` names, or else its default; `debug` and `trace` are on if a flag or the file says
so.  The limits fit each other, and nobody asked for the version, for help or for a test. -/
theorem serve_of_run {readFile : Text → Option Text} {argv : List Text} {setup : Setup}
    {warnings : List String} (h : run readFile argv = (.serve setup, warnings)) :
    ∃ items rest ls, (∀ item ∈ items, item.Ok) ∧ Ends rest ∧
      argv = items.flatMap Item.words ++ rest ∧ FileLines readFile items ls ∧
      Decided items ls setup ∧ setup.cfg.validate = .ok () ∧
      ∀ s ∈ [Switch.version, .help, .testConfig], items.any (Item.isSwitch s) = false := by
  rw [run] at h
  split at h
  · cases h
  rename_i args hargs
  obtain ⟨items, rest, hitems, hends, hwords, rfl⟩ := parsed_of_parseFrom hargs
  have hoff : ∀ s, (items.foldl Args.apply {}).isOn s ≠ true →
      items.any (Item.isSwitch s) = false := fun s hs => by
    rw [isOn_foldl hitems] at hs
    exact (Bool.or_eq_false_iff.mp (Bool.eq_false_iff.mpr hs)).2
  by_cases hversion : (items.foldl Args.apply {}).version = true
  · rw [if_pos hversion] at h
    cases h
  by_cases hhelp : (items.foldl Args.apply {}).help = true
  · rw [if_neg hversion, if_pos hhelp] at h
    cases h
  rw [if_neg hversion, if_neg hhelp] at h
  split at h
  · rename_i outcome hloaded
    rw [Prod.mk.injEq] at h
    rw [h.1, loadConfig] at hloaded
    split at hloaded <;> first | cases hloaded | skip
    split at hloaded <;> first | cases hloaded | skip
    split at hloaded <;> cases hloaded
  rename_i cfg loaded hloaded
  obtain ⟨ls, hlines, hleaves⟩ := leaves_of_loadConfig hitems hloaded
  split at h
  · cases h
  rename_i hvalid
  by_cases htest : (items.foldl Args.apply {}).testConfig = true
  · rw [if_pos htest] at h
    cases h
  rw [if_neg htest] at h
  cases h
  refine ⟨items, rest, ls, hitems, hends, hwords, hlines, decided_applyFlags hitems hleaves,
    hvalid, ?_⟩
  simp only [List.forall_mem_cons, List.not_mem_nil, false_imp_iff, implies_true, and_true]
  exact ⟨hoff .version hversion, hoff .help hhelp, hoff .testConfig htest⟩

/-- A file with a host and a port, and a command line with two ports. -/
def sampleFile (path : Text) : Option Text :=
  if path = "f".toList then some "port: 4333\nhost: 127.0.0.1".toList else none

def sampleLine : List Text :=
  ["-p".toList, "0".toList, "-c".toList, "f".toList, "--port=-1".toList, "x".toList]

/-- The host is that of the file, and the port that of the last flag. -/
theorem serve_of_sample :
    run sampleFile sampleLine =
        (.serve ⟨{ host := "127.0.0.1".toList, port := -1 }, none⟩, []) ∧
      ∃ items rest ls, Ends rest ∧ sampleLine = items.flatMap Item.words ++ rest ∧
        FileLines sampleFile items ls ∧
        Decided items ls ⟨{ host := "127.0.0.1".toList, port := -1 }, none⟩ := by
  have hrun : run sampleFile sampleLine =
      (.serve ⟨{ host := "127.0.0.1".toList, port := -1 }, none⟩, []) := by decide +kernel
  obtain ⟨items, rest, ls, -, hends, hwords, hfile, hdecided, -⟩ := serve_of_run hrun
  exact ⟨hrun, items, rest, ls, hends, hwords, hfile, hdecided⟩

end NatsServer.Flags
