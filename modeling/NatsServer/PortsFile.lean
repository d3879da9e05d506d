/-
# The ports file

A server that listens writes the address into a file of a directory, and a harness that waits for
the server reads the files of that directory again and again.  Nothing orders the two, so the
harness may see a file of which only a part is written, or one that is gone by the time it is
opened.

* `writePortsFile` is the server's side: the name of the file and the bytes of it.
* `readPortsFile` is the harness's: the first file that names an address.

The harness reads JSON with `serde_json::from_str`, which is not part of the repository.  It is a
parameter `fromStr`, and `ReadsJson` says what is relied on: it accepts nothing that the grammar of
`JsonText.lean` refuses, and takes a whole ports file for what it says.

`read_of_shows` puts the two sides together.  Whatever parts of their files the servers of a
directory have written, the harness gets the address from the first file that is whole, and it
waits if there is none; it never fails, and never reads half an address.
-/
import NatsServer.Info
import NatsServer.JsonPrefix

namespace NatsServer.PortsFile

open Str (Text)

/-! ## The server's side -/

/-- The characters of addresses as texts. -/
def isAddrChar (c : Char) : Bool := c.isDigit || ('a' ≤ c && c ≤ 'f') || c == '.' || c == ':'

/-- A bound address; the text of an IPv4 or IPv6 address has digits, points and colons only. -/
structure SocketAddr where
  ip : Text
  port : UInt16
  ip_chars : ∀ c ∈ ip, isAddrChar c = true

def program : Text := "nats-server-rs".toList

/-- The decimal digits that a number is displayed with. -/
def display (n : ℕ) : Text := Nat.toDigits 10 n

/-- `nats://` with the address and the port. -/
def url (addr : SocketAddr) : Text :=
  ['n', 'a', 't', 's', ':', '/', '/'] ++ addr.ip ++ ':' :: display addr.port.toNat

/-- What is written into the file. -/
def body (addr : SocketAddr) : Text :=
  '\x7b' :: '"' :: (['n', 'a', 't', 's'] ++ '"' :: ':' :: '[' :: '"' ::
    (url addr ++ ['"', ']', '\x7d']))

/-- The name of the file: that of the executable without its extension, and the process. -/
def fileName (exe : Option Text) (pid : ℕ) : Text :=
  exe.getD program ++ '_' :: (display pid ++ ".ports".toList)

/-- The directory, the name and the contents of the file, if the server is to write one. -/
def writePortsFile (dir exe : Option Text) (pid : ℕ) (addr : SocketAddr) :
    Option (Text × Text × Bytes) :=
  dir.map fun d => (d, fileName exe pid, Info.utf8 (body addr))

/-! ## The harness's side -/

inductive FileError where
  | notFound
  | other
  deriving DecidableEq

/-- A file of the directory, with what comes of reading it. -/
structure Entry where
  name : Text
  content : Except FileError Bytes

inductive Error where
  | io
  | badUrl (url : Text)
  deriving DecidableEq

def Error.message : Error → Option String
  | .io => none
  | .badUrl url => some ("bad ports url: " ++ String.ofList url)

/-- What stands before and behind the last `a`. -/
def rsplitOnce (a : Char) (s : Text) : Option (Text × Text) :=
  (Str.splitOnce a s.reverse).map fun (x, y) => (y.reverse, x.reverse)

/-- `Path::extension`: behind the last point, unless the name begins there. -/
def extension (name : Text) : Option Text :=
  match rsplitOnce '.' name with
  | some (stem, ext) => if stem = [] then none else some ext
  | none => none

/-- What stands before and behind the first two slashes. -/
def splitSlashes : Text → Option (Text × Text)
  | [] => none
  | '/' :: '/' :: rest => some ([], rest)
  | c :: rest => (splitSlashes rest).map fun (x, y) => (c :: x, y)

/-- `url.split("//").nth(1).unwrap_or(url)`. -/
def authority (url : Text) : Text :=
  match splitSlashes url with
  | none => url
  | some (_, behind) =>
      match splitSlashes behind with
      | none => behind
      | some (piece, _) => piece

/-- `u16::from_str`. -/
def parseUInt16 (s : Text) : Option UInt16 :=
  let digits := match s with
    | '+' :: s => s
    | s => s
  match Str.unsigned 10 digits with
  | some n => if n < 2 ^ 16 then some n.toUInt16 else none
  | none => none

/-- The member of an object; the last one if the key is there twice. -/
def get (key : String) : JsonText.Value → Option JsonText.Value
  | .object ms => (ms.reverse.find? fun m => m.1 == key).map Prod.snd
  | _ => none

def getFirst : JsonText.Value → Option JsonText.Value
  | .array vs => vs.head?
  | _ => none

def asStr : JsonText.Value → Option Text
  | .string s => some s.toList
  | _ => none

section Read

variable (fromStr : Text → Option JsonText.Value)

/-- The address in a file, if it is there already. -/
def readContent (content : Text) : Except Error (Option (Text × UInt16)) :=
  match fromStr content with
  -- seen while it is being written
  | none => .ok none
  | some value =>
      match ((get "nats" value).bind getFirst).bind asStr with
      | none => .ok none
      | some url =>
          match rsplitOnce ':' (authority url) with
          | none => .error (.badUrl url)
          | some (host, port) =>
              match parseUInt16 port with
              | none => .ok none
              | some port => .ok (some (host, port))

/-- One file: `none` lets the loop go on. -/
def readEntry (entry : Entry) : Except Error (Option (Text × UInt16)) :=
  if extension entry.name ≠ some "ports".toList then .ok none
  else
    match entry.content with
    | .error .notFound => .ok none
    | .error .other => .error .io
    | .ok bytes =>
        match bytes.toByteArray.utf8Decode? with
        -- `read_to_string` fails if the file is no text
        | none => .error .io
        | some content => readContent fromStr content.toList

def readEntries : List (Except FileError Entry) → Except Error (Option (Text × UInt16))
  | [] => .ok none
  | .error _ :: _ => .error .io
  | .ok entry :: entries =>
      match readEntry fromStr entry with
      | .error e => .error e
      | .ok (some found) => .ok (some found)
      | .ok none => readEntries entries

/-- The address that the first file with one names. -/
def readPortsFile : Except FileError (List (Except FileError Entry)) →
    Except Error (Option (Text × UInt16))
  | .error .notFound => .ok none
  | .error .other => .error .io
  | .ok entries => readEntries fromStr entries

end Read

/-- What is relied on when a text is read as JSON. -/
structure ReadsJson (fromStr : Text → Option JsonText.Value) : Prop where
  /-- Nothing else is accepted. -/
  json : ∀ text, (fromStr text).isSome = true → (JsonText.decode text).isSome = true
  /-- The text of a ports file is an object with one member, an array of one string. -/
  whole : ∀ addr, fromStr (body addr) =
    some (.object [("nats", .array [.string (String.ofList (url addr))])])

/-! ## Names -/

/-- A text is split at the last separator. -/
theorem rsplitOnce_append {a : Char} {x y : Text} (h : a ∉ y) :
    rsplitOnce a (x ++ a :: y) = some (x, y) := by
  have hsplit : Str.splitOnce a (x ++ a :: y).reverse = some (y.reverse, x.reverse) :=
    Str.splitOnce_eq_some_iff.mpr ⟨by simp, by simpa using h⟩
  simp only [rsplitOnce, hsplit, Option.map_some, List.reverse_reverse]

/-- The file has the extension that is looked for. -/
theorem extension_fileName (exe : Option Text) (pid : ℕ) :
    extension (fileName exe pid) = some "ports".toList := by
  have hname : fileName exe pid =
      (exe.getD program ++ '_' :: display pid) ++ '.' :: "ports".toList := by
    simp [fileName]
  rw [extension, hname, rsplitOnce_append (by decide)]
  exact if_neg (by simp)

/-! ## Addresses -/

section Url

variable (addr : SocketAddr)

/-- A number is shown with digits only. -/
theorem isDigit_of_mem_display {n : ℕ} {c : Char} (h : c ∈ display n) : c.isDigit = true :=
  Nat.isDigit_of_mem_toDigits (by decide) (by decide) h

/-- The value of a decimal digit. -/
theorem digit_of_isDigit {c : Char} (h : c.isDigit = true) :
    Str.digit 10 c = some (c.toNat - 48) := by
  have hle : c.toNat ≤ 57 := by
    rw [Char.isDigit, Bool.and_eq_true, decide_eq_true_eq, decide_eq_true_eq] at h
    exact UInt32.le_iff_toNat_le.mp h.2
  rw [Str.digit, if_pos h]
  exact if_pos (by omega)

/-- Pushing digits reads the number. -/
theorem foldlM_pushDigit {s : Text} (h : ∀ c ∈ s, c.isDigit = true) (m : ℕ) :
    s.foldlM (Str.pushDigit 10) m = some (Nat.ofDigitChars 10 s m) := by
  induction s generalizing m with
  | nil => rfl
  | cons c s ih =>
      obtain ⟨hc, hs⟩ := List.forall_mem_cons.mp h
      rw [List.foldlM_cons, Str.pushDigit, digit_of_isDigit hc, Option.map_some,
        Nat.ofDigitChars_cons, Nat.mul_comm 10 m]
      exact ih hs _

/-- A port that is displayed is read back. -/
theorem parseUInt16_display (port : UInt16) : parseUInt16 (display port.toNat) = some port := by
  have hdigits : ∀ c ∈ display port.toNat, c.isDigit = true := fun c => isDigit_of_mem_display
  have hnumber : Str.unsigned 10 (display port.toNat) = some port.toNat := by
    rw [Str.unsigned, foldlM_pushDigit hdigits, display, if_neg Nat.toDigits_ne_nil,
      Nat.ofDigitChars_ten_toDigits]
  have hplain : ∀ s, display port.toNat = '+' :: s → False := by
    intro s hs
    exact absurd (hdigits '+' (hs ▸ List.mem_cons_self)) (by decide)
  unfold parseUInt16
  split
  · rename_i s hs
    exact (hplain s hs).elim
  · simp only [hnumber]
    rw [if_pos port.toNat_lt, Nat.toUInt16_eq, UInt16.ofNat_toNat]

/-- Without a slash there is no scheme. -/
theorem splitSlashes_eq_none {s : Text} (h : '/' ∉ s) : splitSlashes s = none := by
  induction s with
  | nil => rfl
  | cons c s ih =>
      rw [List.mem_cons, not_or] at h
      rw [splitSlashes, ih h.2, Option.map_none]
      rintro rest rfl _
      exact h.1 rfl

/-- An address has no character other than its own. -/
theorem not_mem_ip {c : Char} (hc : isAddrChar c = false) : c ∉ addr.ip := fun h =>
  absurd (addr.ip_chars c h) (by simp [hc])

/-- A number has no character other than digits. -/
theorem not_mem_display {n : ℕ} {c : Char} (hc : c.isDigit = false) : c ∉ display n := fun h =>
  absurd (isDigit_of_mem_display h) (by simp [hc])

/-- The authority of the URL is the address and its port. -/
theorem authority_url : authority (url addr) = addr.ip ++ ':' :: display addr.port.toNat := by
  have hslash : '/' ∉ addr.ip ++ ':' :: display addr.port.toNat := by
    simp [not_mem_ip addr (show isAddrChar '/' = false from rfl),
      not_mem_display (show Char.isDigit '/' = false from rfl)]
  have hsplit : splitSlashes (url addr) =
      some (['n', 'a', 't', 's', ':'], addr.ip ++ ':' :: display addr.port.toNat) := by
    rw [url, List.append_assoc]
    simp [splitSlashes]
  rw [authority, hsplit]
  simp only [splitSlashes_eq_none hslash]

/-- The URL is taken apart as it was put together. -/
theorem rsplitOnce_authority :
    rsplitOnce ':' (authority (url addr)) = some (addr.ip, display addr.port.toNat) := by
  rw [authority_url, rsplitOnce_append (not_mem_display (show Char.isDigit ':' = false from rfl))]

end Url

/-! ## Contents -/

section Body

variable (addr : SocketAddr)

/-- The characters of a URL stand for themselves in a string. -/
def isPlain (c : Char) : Bool := c != '"' && c != '\\' && 0x20 ≤ c.toNat && c.toNat < 0x80

/-- These characters stand for themselves in a JSON text. -/
theorem isPlain_of_toNat {c : Char} (hge : 45 ≤ c.toNat) (hlt : c.toNat < 0x80)
    (hslash : c.toNat ≠ 92) : isPlain c = true := by
  have hquote : c ≠ '"' := by
    rintro rfl
    exact absurd hge (by decide)
  have hne : c ≠ '\\' := by
    rintro rfl
    exact hslash rfl
  simp only [isPlain, Bool.and_eq_true, bne_iff_ne, decide_eq_true_eq]
  exact ⟨⟨⟨hquote, hne⟩, by omega⟩, hlt⟩

/-- Digits stand for themselves. -/
theorem isPlain_of_isDigit {c : Char} (h : c.isDigit = true) : isPlain c = true := by
  rw [Char.isDigit, Bool.and_eq_true, decide_eq_true_eq, decide_eq_true_eq] at h
  have hge : 48 ≤ c.toNat := UInt32.le_iff_toNat_le.mp h.1
  have hle : c.toNat ≤ 57 := UInt32.le_iff_toNat_le.mp h.2
  exact isPlain_of_toNat (by omega) (by omega) (by omega)

/-- The characters of an address stand for themselves. -/
theorem isPlain_of_isAddrChar {c : Char} (h : isAddrChar c = true) : isPlain c = true := by
  simp only [isAddrChar, Bool.or_eq_true, Bool.and_eq_true, decide_eq_true_eq, beq_iff_eq] at h
  rcases h with ((hdigit | ⟨ha, hf⟩) | rfl) | rfl
  · exact isPlain_of_isDigit hdigit
  · have hge : 97 ≤ c.toNat := UInt32.le_iff_toNat_le.mp ha
    have hle : c.toNat ≤ 102 := UInt32.le_iff_toNat_le.mp hf
    exact isPlain_of_toNat (by omega) (by omega) (by omega)
  · rfl
  · rfl

/-- The characters of the URL stand for themselves. -/
theorem isPlain_of_mem_url {c : Char} (h : c ∈ url addr) : isPlain c = true := by
  rw [url, List.append_assoc] at h
  rcases List.mem_append.mp h with hscheme | h
  · fin_cases hscheme <;> rfl
  rcases List.mem_append.mp h with hip | h
  · exact isPlain_of_isAddrChar (addr.ip_chars c hip)
  rcases List.mem_cons.mp h with rfl | hport
  · rfl
  · exact isPlain_of_isDigit (isDigit_of_mem_display hport)

/-- A text of plain characters is read as it stands. -/
theorem chars_of_plain {s : Text} (h : ∀ c ∈ s, isPlain c = true) (rest : Text) :
    JsonText.chars (s ++ '"' :: rest) = some (s, rest) := by
  induction s with
  | nil => exact JsonText.chars_quote rest
  | cons c s ih =>
      obtain ⟨hc, hs⟩ := List.forall_mem_cons.mp h
      simp only [isPlain, Bool.and_eq_true, bne_iff_ne, decide_eq_true_eq] at hc
      rw [List.cons_append, JsonText.chars_plain hc.1.1.1 hc.1.1.2 hc.1.2, ih hs, Option.map_some]

/-- The array, in front of the brace. -/
theorem value_array (fuel : ℕ) :
    JsonText.value (fuel + 3) ('[' :: '"' :: (url addr ++ ['"', ']', '\x7d'])) =
      some (.array [.string (String.ofList (url addr))], ['\x7d']) := by
  have hurl := chars_of_plain (fun c => isPlain_of_mem_url addr) [']', '\x7d']
  rw [JsonText.value_bracket (JsonText.skipSpace_of_head rfl _)
    (JsonText.skipSpace_of_head rfl _) (by decide), JsonText.elements,
    JsonText.value_quote hurl]
  rfl

/-- The whole text is one object. -/
theorem value_body (fuel : ℕ) :
    JsonText.value (fuel + 5) (body addr) =
      some (.object [("nats", .array [.string (String.ofList (url addr))])], []) := by
  have hkey := chars_of_plain (show ∀ c ∈ ['n', 'a', 't', 's'], isPlain c = true by simp [isPlain])
    (':' :: '[' :: '"' :: (url addr ++ ['"', ']', '\x7d']))
  rw [body, JsonText.value_brace (JsonText.skipSpace_of_head rfl _)
    (JsonText.skipSpace_of_head rfl _) (by decide), JsonText.members,
    JsonText.skipSpace_of_head rfl]
  simp only [hkey, Option.bind_eq_bind, Option.bind_some, value_array,
    JsonText.skipSpace_of_head (show JsonText.isSpace ':' = false from rfl)]
  rfl

/-- The grammar has the value that is relied on. -/
theorem decode_body :
    JsonText.decode (body addr) =
      some (.object [("nats", .array [.string (String.ofList (url addr))])]) := by
  have hlength : (body addr).length + 1 = (body addr).length - 4 + 5 := by
    simp only [body, List.length_cons, List.length_append]
    omega
  rw [JsonText.decode, hlength, value_body]
  rfl

/-- The decoder of `JsonText` is such a reader. -/
theorem readsJson_decode : ReadsJson JsonText.decode := ⟨fun _ => id, decode_body⟩

variable {fromStr : Text → Option JsonText.Value}

/-- The whole text names the address. -/
theorem readContent_body (hjson : ReadsJson fromStr) :
    readContent fromStr (body addr) = .ok (some (addr.ip, addr.port)) := by
  have hvalue : ((get "nats" (.object [("nats", .array [.string (String.ofList (url addr))])])).bind
      getFirst).bind asStr = some (url addr) := by
    simp [get, getFirst, asStr]
  rw [readContent, hjson.whole]
  simp only [hvalue, rsplitOnce_authority, parseUInt16_display]

/-- A text that is a part of it names nothing yet. -/
theorem readContent_of_prefix (hjson : ReadsJson fromStr) {text : Text} (h : text <+: body addr)
    (hne : text ≠ body addr) : readContent fromStr text = .ok none := by
  obtain ⟨more, hmore⟩ := h
  have hmore_ne : more ≠ [] := by
    rintro rfl
    exact hne (by rw [← hmore, List.append_nil])
  have hgrammar := JsonText.decode_eq_none_of_object (value_body addr 0) hmore hmore_ne
  have hnone : fromStr text = none := by
    rw [← Option.not_isSome_iff_eq_none]
    intro hsome
    simpa [hgrammar] using hjson.json text hsome
  rw [readContent, hnone]

/-! ### Bytes -/

/-- The file is written in ASCII. -/
theorem toNat_lt_of_mem_body {c : Char} (h : c ∈ body addr) : c.toNat < 128 := by
  simp only [body, List.cons_append, List.nil_append, List.mem_cons, List.mem_append] at h
  rcases h with rfl | rfl | rfl | rfl | rfl | rfl | rfl | rfl | rfl | rfl | h | h
  all_goals first | decide | skip
  · have hplain := isPlain_of_mem_url addr h
    simp only [isPlain, Bool.and_eq_true, decide_eq_true_eq] at hplain
    exact hplain.2
  · rcases h with rfl | rfl | rfl | h <;> first | decide | cases h

/-- One byte for each character. -/
theorem utf8_of_ascii {text : Text} (h : ∀ c ∈ text, c.toNat < 128) :
    Info.utf8 text = text.map fun c => c.toNat.toUInt8 := by
  induction text with
  | nil => rfl
  | cons c text ih =>
      obtain ⟨hc, htext⟩ := List.forall_mem_cons.mp h
      rw [Info.utf8_cons, Info.utf8EncodeChar_of_lt hc, ih htext]
      rfl

/-- The bytes written so far are those of a part of the text. -/
theorem exists_text_of_prefix {bytes : Bytes} (h : bytes <+: Info.utf8 (body addr)) :
    ∃ text, text <+: body addr ∧ bytes = Info.utf8 text := by
  have hascii : ∀ c ∈ body addr, c.toNat < 128 := fun c => toNat_lt_of_mem_body addr
  refine ⟨(body addr).take bytes.length, List.take_prefix _ _, ?_⟩
  rw [utf8_of_ascii fun c hc => hascii c (List.mem_of_mem_take hc), List.map_take,
    ← utf8_of_ascii hascii]
  exact List.prefix_iff_eq_take.mp h

/-- What is encoded as UTF-8 is decoded again. -/
theorem utf8Decode_utf8 (text : Text) :
    (Info.utf8 text).toByteArray.utf8Decode? = some text.toArray :=
  List.utf8Decode?_utf8Encode

end Body

/-! ## Servers and the harness -/

/-- What the harness can see of a directory in which servers write their files: other files, files
that are gone when they are opened, and the bytes written so far.  A file that is whole shows the
address of its server. -/
inductive Shows : Entry → Option SocketAddr → Prop
  | other {entry : Entry} (h : extension entry.name ≠ some "ports".toList) : Shows entry none
  | gone {name : Text} : Shows ⟨name, .error .notFound⟩ none
  | part {name : Text} {bytes : Bytes} {addr : SocketAddr} (h : bytes <+: Info.utf8 (body addr))
      (hne : bytes ≠ Info.utf8 (body addr)) : Shows ⟨name, .ok bytes⟩ none
  | whole {dir : Text} {exe : Option Text} {pid : ℕ} {addr : SocketAddr} {name : Text}
      {bytes : Bytes} (h : writePortsFile (some dir) exe pid addr = some (dir, name, bytes)) :
      Shows ⟨name, .ok bytes⟩ (some addr)

/-- What a reader gets from an entry is what the entry shows. -/
theorem readEntry_of_shows {fromStr : Text → Option JsonText.Value} (hjson : ReadsJson fromStr)
    {entry : Entry} {seen : Option SocketAddr} (h : Shows entry seen) :
    readEntry fromStr entry = .ok (seen.map fun addr => (addr.ip, addr.port)) := by
  cases h with
  | other h => exact if_pos h
  | gone =>
      rw [readEntry]
      split <;> rfl
  | part h hne =>
      obtain ⟨text, htext, rfl⟩ := exists_text_of_prefix _ h
      rw [readEntry]
      split
      · rfl
      · simp only [utf8Decode_utf8]
        exact readContent_of_prefix _ hjson htext fun heq => hne (by rw [heq])
  | whole h =>
      cases h
      rw [readEntry, if_neg (not_not.mpr (extension_fileName _ _))]
      simp only [utf8Decode_utf8]
      exact readContent_body _ hjson

/-- **The harness and its servers.**  The address in the first file that is whole, and none as
long as no file is. -/
theorem read_of_shows {fromStr : Text → Option JsonText.Value} (hjson : ReadsJson fromStr)
    {entries : List Entry} {seen : List (Option SocketAddr)}
    (h : List.Forall₂ Shows entries seen) :
    readPortsFile fromStr (.ok (entries.map .ok)) =
      .ok (seen.reduceOption.head?.map fun addr => (addr.ip, addr.port)) := by
  change readEntries fromStr _ = _
  induction h with
  | nil => rfl
  | @cons entry s entries seen hentry _ ih =>
      rw [List.map_cons, readEntries, readEntry_of_shows hjson hentry]
      cases s with
      | none => exact ih
      | some addr => rfl

/-- The address of a server on the loopback device. -/
def loopback (port : UInt16) : SocketAddr where
  ip := ['1', '2', '7', '.', '0', '.', '0', '.', '1']
  port
  ip_chars := by simp [isAddrChar]

/-- Two servers, of which the first has written ten bytes. -/
theorem read_of_two :
    readPortsFile JsonText.decode
        (.ok ([⟨fileName none 7, .ok ((Info.utf8 (body (loopback 4222))).take 10)⟩,
          ⟨fileName none 8, .ok (Info.utf8 (body (loopback 4223)))⟩].map .ok)) =
      .ok (some ((loopback 4223).ip, 4223)) := by
  have hshort : ((Info.utf8 (body (loopback 4222))).take 10).length <
      (Info.utf8 (body (loopback 4222))).length := by decide +kernel
  have hpart : Shows ⟨fileName none 7, .ok ((Info.utf8 (body (loopback 4222))).take 10)⟩ none :=
    .part (List.take_prefix _ _) fun heq => absurd (congrArg List.length heq) hshort.ne
  have hwhole : Shows ⟨fileName none 8, .ok (Info.utf8 (body (loopback 4223)))⟩
      (some (loopback 4223)) :=
    .whole (show writePortsFile (some []) none 8 (loopback 4223) = some ([], _, _) from rfl)
  exact read_of_shows readsJson_decode (.cons hpart (.cons hwhole .nil))

end NatsServer.PortsFile
