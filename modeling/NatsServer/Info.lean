/-
# The INFO line

`info.rs`: the first line of every connection, built by hand.  Every text in it goes
through `push_str`, which escapes control characters, so that no configured name can end
the line early, and quotes and backslashes, so that a client decodes what was configured
(`line_decodes`).
-/
import NatsServer.Frames
import NatsServer.JsonText

namespace NatsServer

/-- What a client is told when it connects. -/
structure Info where
  serverId : String
  serverName : String
  version : String
  host : String
  port : UInt16
  maxPayload : UInt64

namespace Info

/-- A digit of `{:04x}`. -/
def hexDigit (n : ℕ) : UInt8 := if n < 10 then (48 + n).toUInt8 else (87 + n).toUInt8

/-- `format!("\\u{:04x}")`. -/
def escapeHex (n : ℕ) : Bytes :=
  ascii "\\u" ++ [n / 4096 % 16, n / 256 % 16, n / 16 % 16, n % 16].map hexDigit

/-- One character of a value. -/
def pushChar (c : Char) : Bytes :=
  if c = '"' then ascii "\\\""
  else if c = '\\' then ascii "\\\\"
  else if c = '\n' then ascii "\\n"
  else if c = '\r' then ascii "\\r"
  else if c = '\t' then ascii "\\t"
  else if c.toNat < 0x20 then escapeHex c.toNat
  else String.utf8EncodeChar c

/-- `push_str`. -/
def pushStr (key value : String) : Bytes :=
  ascii "\"" ++ ascii key ++ ascii "\":\"" ++ value.toList.flatMap pushChar ++ ascii "\""

/-- The fields, in the order clients see. -/
def fields (i : Info) (cid : UInt64) (clientIp : String) : Bytes :=
  pushStr "server_id" i.serverId ++ ascii "," ++ pushStr "server_name" i.serverName ++
    ascii "," ++ pushStr "version" i.version ++ ascii ",\"proto\":1" ++ ascii "," ++
    pushStr "host" i.host ++ (ascii ",\"port\":" ++ Frames.pushU64 i.port.toNat) ++
    ascii ",\"headers\":true" ++ (ascii ",\"max_payload\":" ++ Frames.pushU64 i.maxPayload.toNat) ++
    (ascii ",\"client_id\":" ++ Frames.pushU64 cid.toNat) ++ ascii "," ++
    pushStr "client_ip" clientIp

/-- `INFO <json> \r\n`. -/
def line (i : Info) (cid : UInt64) (clientIp : String) : Bytes :=
  ascii "INFO \x7b" ++ i.fields cid clientIp ++ ascii "\x7d \r\n"

/-! ## No text ends the line -/

/-- No byte is a control character. -/
def noControl (bs : Bytes) : Bool := bs.all fun b => 0x20 ≤ b

@[simp] theorem noControl_append (bs cs : Bytes) :
    noControl (bs ++ cs) = (noControl bs && noControl cs) := List.all_append

/-- A text without control bytes has none of them. -/
theorem notMem_of_noControl {bs : Bytes} (h : noControl bs = true) {b : UInt8}
    (hb : ¬ 0x20 ≤ b) : b ∉ bs := fun hmem =>
  hb (of_decide_eq_true (List.all_eq_true.mp h b hmem))

/-- The encoding of a printable character has no control byte. -/
theorem noControl_utf8EncodeChar {c : Char} (h : 0x20 ≤ c.toNat) :
    noControl (String.utf8EncodeChar c) = true := by
  have hbyte : ∀ n : ℕ, 0x20 ≤ n → n < 256 → (0x20 : UInt8) ≤ UInt8.ofNat n := by
    intro n hlo hhi
    rw [UInt8.le_iff_toNat_le, UInt8.toNat_ofNat_of_lt' hhi]
    exact hlo
  have hv : c.toNat = c.val.toNat := rfl
  unfold noControl String.utf8EncodeChar
  simp only
  split_ifs <;> simp only [List.all_cons, List.all_nil, Bool.and_true, Bool.and_eq_true,
    decide_eq_true_eq]
  · exact hbyte _ (by omega) (by omega)
  · exact ⟨hbyte _ (by omega) (by omega), hbyte _ (by omega) (by omega)⟩
  · exact ⟨hbyte _ (by omega) (by omega), hbyte _ (by omega) (by omega),
      hbyte _ (by omega) (by omega)⟩
  · exact ⟨hbyte _ (by omega) (by omega), hbyte _ (by omega) (by omega),
      hbyte _ (by omega) (by omega), hbyte _ (by omega) (by omega)⟩

/-- An escape in hexadecimal has no control byte. -/
theorem noControl_escapeHex (n : ℕ) : noControl (escapeHex n) = true := by
  have hdigit : ∀ d < 16, (0x20 : UInt8) ≤ hexDigit d := by decide
  have hslash : noControl (ascii "\\u") = true := rfl
  unfold escapeHex
  rw [noControl_append, hslash, Bool.true_and, noControl, List.all_eq_true]
  intro b hb
  obtain ⟨d, hd, rfl⟩ := List.mem_map.mp hb
  refine decide_eq_true (hdigit d ?_)
  simp only [List.mem_cons, List.not_mem_nil, or_false] at hd
  omega

/-- A character is written without a control byte. -/
theorem noControl_pushChar (c : Char) : noControl (pushChar c) = true := by
  unfold pushChar
  split_ifs
  · rfl
  · rfl
  · rfl
  · rfl
  · rfl
  · exact noControl_escapeHex _
  · exact noControl_utf8EncodeChar (by omega)

/-- A member with a text is written without a control byte. -/
theorem noControl_pushStr {key : String} (h : noControl (ascii key) = true) (value : String) :
    noControl (pushStr key value) = true := by
  have hquote : noControl (ascii "\"") = true := rfl
  have hcolon : noControl (ascii "\":\"") = true := rfl
  have hvalue : noControl (value.toList.flatMap pushChar) = true := by
    rw [noControl, List.all_flatMap, List.all_eq_true]
    exact fun c _ => noControl_pushChar c
  unfold pushStr
  rw [noControl_append, noControl_append, noControl_append, noControl_append, hquote, h, hcolon,
    hvalue]
  rfl

/-- A number is written without a control byte. -/
theorem noControl_pushU64 (n : ℕ) : noControl (Frames.pushU64 n) = true := by
  rw [noControl, List.all_eq_true]
  intro b hb
  have hdigit := Frames.isDigit_of_mem_pushU64 b hb
  rw [Proto.isDigit, Bool.and_eq_true, decide_eq_true_eq] at hdigit
  exact decide_eq_true (UInt8.le_trans (by decide) hdigit.1)

/-- The fields are written without a control byte. -/
theorem noControl_fields (i : Info) (cid : UInt64) (clientIp : String) :
    noControl (i.fields cid clientIp) = true := by
  unfold fields
  simp only [noControl_append, Bool.and_eq_true, noControl_pushU64, and_true]
  and_intros <;> first
    | rfl
    | exact noControl_pushStr rfl _

/-- A number contains no CR. -/
theorem cr_notMem_pushU64 (n : ℕ) : (13 : UInt8) ∉ Frames.pushU64 n :=
  notMem_of_noControl (noControl_pushU64 n) (by decide)

/-- The fields contain no CR. -/
theorem cr_notMem_fields (i : Info) (cid : UInt64) (clientIp : String) :
    (13 : UInt8) ∉ i.fields cid clientIp :=
  notMem_of_noControl (i.noControl_fields cid clientIp) (by decide)

/-! ## What a client decodes -/

/-- UTF-8. -/
def utf8 (text : List Char) : Bytes := text.flatMap String.utf8EncodeChar

@[simp] theorem utf8_nil : utf8 [] = [] := rfl

@[simp] theorem utf8_cons (c : Char) (text : List Char) :
    utf8 (c :: text) = String.utf8EncodeChar c ++ utf8 text := List.flatMap_cons

@[simp] theorem utf8_append (text text' : List Char) :
    utf8 (text ++ text') = utf8 text ++ utf8 text' := List.flatMap_append

/-- A character of one byte. -/
theorem utf8EncodeChar_of_lt {c : Char} (h : c.toNat < 128) :
    String.utf8EncodeChar c = [c.toNat.toUInt8] := by
  have hv : c.val.toNat ≤ 0x7f := Nat.lt_succ_iff.mp h
  unfold String.utf8EncodeChar
  simp only [if_pos hv]
  rfl

def hexChar (n : ℕ) : Char := Char.ofNat (if n < 10 then 48 + n else 87 + n)

/-- `pushChar` in characters. -/
def escaped (c : Char) : List Char :=
  if c = '"' then ['\\', '"']
  else if c = '\\' then ['\\', '\\']
  else if c = '\n' then ['\\', 'n']
  else if c = '\r' then ['\\', 'r']
  else if c = '\t' then ['\\', 't']
  else if c.toNat < 0x20 then
    '\\' :: 'u' :: [c.toNat / 4096 % 16, c.toNat / 256 % 16, c.toNat / 16 % 16,
      c.toNat % 16].map hexChar
  else [c]

/-- The escape in hexadecimal, as a text. -/
theorem escapeHex_eq_utf8 (n : ℕ) :
    escapeHex n = utf8 ('\\' :: 'u' ::
      [n / 4096 % 16, n / 256 % 16, n / 16 % 16, n % 16].map hexChar) := by
  have hdigit : ∀ d < 16, [hexDigit d] = String.utf8EncodeChar (hexChar d) := by decide +kernel
  have hslash : ascii "\\u" = utf8 ['\\', 'u'] := by decide +kernel
  unfold escapeHex
  rw [hslash]
  simp only [List.map_cons, List.map_nil, utf8_cons, utf8_nil, List.append_nil, List.append_assoc,
    ← hdigit _ (Nat.mod_lt _ (by decide : 16 > 0)), List.singleton_append]

/-- A character is written as its escape, or as it is. -/
theorem pushChar_eq_utf8 (c : Char) : pushChar c = utf8 (escaped c) := by
  unfold pushChar escaped
  split_ifs
  · decide +kernel
  · decide +kernel
  · decide +kernel
  · decide +kernel
  · decide +kernel
  · exact escapeHex_eq_utf8 _
  · rw [utf8_cons, utf8_nil, List.append_nil]

/-- **Every escape is undone.** -/
theorem chars_escaped (c : Char) (rest : List Char) :
    JsonText.chars (escaped c ++ rest) =
      (JsonText.chars rest).map fun (cs, rest) => (c :: cs, rest) := by
  unfold escaped
  split_ifs with hquote hslash hlf hcr htab hctl
  · subst hquote
    exact JsonText.chars_escape rfl rest
  · subst hslash
    exact JsonText.chars_escape rfl rest
  · subst hlf
    exact JsonText.chars_escape rfl rest
  · subst hcr
    exact JsonText.chars_escape rfl rest
  · subst htab
    exact JsonText.chars_escape rfl rest
  · have hunit : ∀ n < 0x20, JsonText.codeUnit (hexChar (n / 4096 % 16)) (hexChar (n / 256 % 16))
        (hexChar (n / 16 % 16)) (hexChar (n % 16)) = some n := by decide +kernel
    have hread := JsonText.chars_codeUnit (hunit _ hctl) (by omega) rest
    rwa [Char.ofNat_toNat] at hread
  · exact JsonText.chars_plain hquote hslash (not_lt.mp hctl) rest

/-- A text that was escaped is read back. -/
theorem chars_flatMap_escaped (text rest : List Char) :
    JsonText.chars (text.flatMap escaped ++ '"' :: rest) = some (text, rest) := by
  induction text with
  | nil => exact JsonText.chars_quote rest
  | cons c text ih => rw [List.flatMap_cons, List.append_assoc, chars_escaped, ih, Option.map_some]

/-- The digits in characters. -/
def decimal (n : ℕ) : List Char := (Frames.pushU64 n).map fun b => Char.ofNat b.toNat

section Decimal

variable {n : ℕ}

/-- A digit as a character. -/
theorem digit_char {b : UInt8} (hb : Proto.isDigit b = true) :
    (Char.ofNat b.toNat).toNat = b.toNat ∧ b.toNat ≤ 57 ∧ 48 ≤ b.toNat := by
  simp only [Proto.isDigit, Bool.and_eq_true, decide_eq_true_eq, UInt8.le_iff_toNat_le] at hb
  have hle : b.toNat ≤ 57 := hb.2
  refine ⟨?_, hle, hb.1⟩
  rw [Char.toNat_ofNat, if_pos (Or.inl (by omega))]

/-- A number in decimal, as a text. -/
theorem utf8_decimal (n : ℕ) : utf8 (decimal n) = Frames.pushU64 n := by
  have hall := Frames.isDigit_of_mem_pushU64 (n := n)
  unfold decimal
  generalize Frames.pushU64 n = bs at hall
  induction bs with
  | nil => rfl
  | cons b bs ih =>
      obtain ⟨hb, hbs⟩ := List.forall_mem_cons.mp hall
      obtain ⟨htoNat, hle, -⟩ := digit_char hb
      rw [List.map_cons, utf8_cons, utf8EncodeChar_of_lt (by omega), htoNat, ih hbs]
      simp

/-- Reading the text of a number gives the number. -/
theorem ofDigits_decimal (hn : n < 10 ^ 20) : JsonText.ofDigits (decimal n) = n := by
  rw [JsonText.ofDigits, decimal, List.foldl_map]
  refine (List.foldl_ext _ Frames.readDigit 0 fun v b hb => ?_).trans (Frames.foldl_pushU64 hn)
  rw [(digit_char (Frames.isDigit_of_mem_pushU64 b hb)).1, Frames.readDigit]

/-- A number is written without leading zeros. -/
theorem isInteger_decimal (hn : n < 10 ^ 20) : JsonText.IsInteger (decimal n) where
  ne_nil := by
    intro h
    exact Frames.pushU64_ne_nil n (List.map_eq_nil_iff.mp h)
  digits := by
    intro c hc
    obtain ⟨b, hb, rfl⟩ := List.mem_map.mp hc
    obtain ⟨htoNat, hle, hge⟩ := digit_char (Frames.isDigit_of_mem_pushU64 b hb)
    rw [Char.isDigit, Bool.and_eq_true, decide_eq_true_eq, decide_eq_true_eq]
    exact ⟨UInt32.le_iff_toNat_le.mpr (hge.trans_eq htoNat.symm),
      UInt32.le_iff_toNat_le.mpr (htoNat.trans_le hle)⟩
  head := by
    intro hhead
    rw [decimal, List.head?_map, Option.map_eq_some_iff] at hhead
    obtain ⟨b, hb, hchar⟩ := hhead
    have htoNat := (digit_char (Frames.isDigit_of_mem_pushU64 b (List.mem_of_mem_head? hb))).1
    rw [hchar] at htoNat
    have hzero : b = 48 := UInt8.toNat_inj.mp htoNat.symm
    rw [Frames.eq_zero_of_head?_pushU64 hn (hzero ▸ hb)]
    rfl

end Decimal

/-! ### The members -/

/-- The inside of a key's string is the key itself. -/
theorem chars_key {key : String} (h : key.toList.flatMap escaped = key.toList) (rest : List Char) :
    JsonText.chars (key.toList ++ '"' :: rest) = some (key.toList, rest) := by
  have hread := chars_flatMap_escaped key.toList rest
  rwa [h] at hread

/-- A member with a text under a key that needs no escapes. -/
def stringMember (key value : String) (h : key.toList.flatMap escaped = key.toList) :
    JsonText.Member where
  key
  value := .string value
  inside := key.toList
  text := '"' :: (value.toList.flatMap escaped ++ ['"'])
  reads_key := chars_key h
  reads_value := by
    intro fuel rest _
    rw [List.cons_append, List.append_assoc, List.singleton_append,
      JsonText.value_quote (chars_flatMap_escaped _ rest), String.ofList_toList]

def numberMember (key : String) (n : ℕ) (h : key.toList.flatMap escaped = key.toList)
    (hn : n < 10 ^ 20) : JsonText.Member where
  key
  value := .number n
  inside := key.toList
  text := decimal n
  reads_key := chars_key h
  reads_value := by
    intro fuel rest hrest
    rw [JsonText.value_digits (isInteger_decimal hn) hrest, ofDigits_decimal hn]

def trueMember (key : String) (h : key.toList.flatMap escaped = key.toList) :
    JsonText.Member where
  key
  value := .bool true
  inside := key.toList
  text := ['t', 'r', 'u', 'e']
  reads_key := chars_key h
  reads_value := fun fuel rest _ => JsonText.value_true fuel rest

/-- The members of the object, with their texts. -/
def members (i : Info) (cid : UInt64) (clientIp : String) : List JsonText.Member :=
  have hlt : ∀ n : UInt64, n.toNat < 10 ^ 20 := fun n => n.toNat_lt.trans (by norm_num)
  [stringMember "server_id" i.serverId rfl,
    stringMember "server_name" i.serverName rfl,
    stringMember "version" i.version rfl,
    numberMember "proto" 1 rfl (by norm_num),
    stringMember "host" i.host rfl,
    numberMember "port" i.port.toNat rfl (i.port.toNat_lt.trans (by norm_num)),
    trueMember "headers" rfl,
    numberMember "max_payload" i.maxPayload.toNat rfl (hlt _),
    numberMember "client_id" cid.toNat rfl (hlt _),
    stringMember "client_ip" clientIp rfl]

/-- A member with a text, as a text. -/
theorem pushStr_eq_utf8 {key : String} (hkey : ascii key = utf8 key.toList) (value : String) :
    pushStr key value = utf8 ('"' :: (key.toList ++ '"' :: ':' ::
      '"' :: (value.toList.flatMap escaped ++ ['"']))) := by
  have hvalue : value.toList.flatMap pushChar = utf8 (value.toList.flatMap escaped) := by
    rw [utf8, List.flatMap_assoc]
    exact List.flatMap_congr fun c _ => pushChar_eq_utf8 c
  have hquote : ascii "\"" = utf8 ['"'] := rfl
  have hcolon : ascii "\":\"" = utf8 ['"', ':', '"'] := rfl
  rw [pushStr, hkey, hvalue, hquote, hcolon]
  simp only [← utf8_append, List.append_assoc, List.cons_append, List.nil_append]

/-- The separators of the source stand where the members end. -/
theorem fields_eq_utf8 (i : Info) (cid : UInt64) (clientIp : String) :
    i.fields cid clientIp = utf8 (JsonText.memberTexts (i.members cid clientIp)) := by
  have hproto : ascii ",\"proto\":1" = utf8 (',' :: '"' :: ("proto".toList ++ '"' :: ':' ::
      decimal 1)) := rfl
  have hport : ascii ",\"port\":" = utf8 (',' :: '"' :: ("port".toList ++ ['"', ':'])) := rfl
  have hheaders : ascii ",\"headers\":true" = utf8 (',' :: '"' :: ("headers".toList ++
      '"' :: ':' :: ['t', 'r', 'u', 'e'])) := rfl
  have hpayload : ascii ",\"max_payload\":" =
      utf8 (',' :: '"' :: ("max_payload".toList ++ ['"', ':'])) := rfl
  have hcid : ascii ",\"client_id\":" =
      utf8 (',' :: '"' :: ("client_id".toList ++ ['"', ':'])) := rfl
  have hcomma : ascii "," = utf8 [','] := rfl
  unfold fields
  rw [pushStr_eq_utf8 rfl, pushStr_eq_utf8 rfl, pushStr_eq_utf8 rfl, pushStr_eq_utf8 rfl,
    pushStr_eq_utf8 rfl, hproto, hport, hheaders, hpayload, hcid, hcomma, ← utf8_decimal,
    ← utf8_decimal, ← utf8_decimal]
  simp only [← utf8_append, List.append_assoc, List.cons_append, List.nil_append, members,
    JsonText.memberTexts, stringMember, numberMember, trueMember]

/-- What the contract says the object holds. -/
def documented (i : Info) (cid : UInt64) (clientIp : String) : List (String × JsonText.Value) :=
  [("server_id", .string i.serverId), ("server_name", .string i.serverName),
    ("version", .string i.version), ("proto", .number 1), ("host", .string i.host),
    ("port", .number i.port.toNat), ("headers", .bool true),
    ("max_payload", .number i.maxPayload.toNat), ("client_id", .number cid.toNat),
    ("client_ip", .string clientIp)]

/-- The members carry the documented keys and values. -/
theorem map_members (i : Info) (cid : UInt64) (clientIp : String) :
    ((i.members cid clientIp).map fun m => (m.key, m.value)) = i.documented cid clientIp := by
  simp only [members, documented, List.map_cons, List.map_nil, stringMember, numberMember,
    trueMember, Nat.cast_one]

/-- **The INFO line.**  For all values it is `INFO`, one JSON object and a blank, without a CR or
an LF before the CRLF at its end, and the object is decoded to exactly the values under the
documented keys, each of which occurs once. -/
theorem line_decodes (i : Info) (cid : UInt64) (clientIp : String) :
    ∃ object : Bytes, i.line cid clientIp = ascii "INFO " ++ object ++ ascii " " ++ Frames.crlf ∧
      (13 ∉ ascii "INFO " ++ object ++ ascii " " ∧ 10 ∉ ascii "INFO " ++ object ++ ascii " ") ∧
      JsonText.decodeBytes object = some (.object (i.documented cid clientIp)) ∧
      ((i.documented cid clientIp).map Prod.fst).Nodup := by
  have hinfo : noControl (ascii "INFO ") = true := rfl
  have hobject : noControl ([123] ++ i.fields cid clientIp ++ [125]) = true := by
    rw [noControl_append, noControl_append, noControl_fields]
    rfl
  have hline : noControl (ascii "INFO " ++ ([123] ++ i.fields cid clientIp ++ [125]) ++
      ascii " ") = true := by
    rw [noControl_append, noControl_append, hinfo, hobject]
    rfl
  refine ⟨[123] ++ i.fields cid clientIp ++ [125], ?_,
    ⟨notMem_of_noControl hline (by decide), notMem_of_noControl hline (by decide)⟩, ?_, ?_⟩
  · have hopen : ascii "INFO \x7b" = ascii "INFO " ++ [123] := rfl
    have hclose : ascii "\x7d \r\n" = [125] ++ ascii " " ++ Frames.crlf := rfl
    rw [line, hopen, hclose]
    simp only [List.append_assoc]
  · have htext : [123] ++ i.fields cid clientIp ++ [125] =
        utf8 ('\x7b' :: (JsonText.memberTexts (i.members cid clientIp) ++ ['\x7d'])) := by
      rw [fields_eq_utf8, utf8_cons, utf8_append]
      rfl
    have hne : i.members cid clientIp ≠ [] := List.cons_ne_nil _ _
    rw [htext, utf8, JsonText.decodeBytes_utf8, JsonText.decode_memberTexts hne, map_members]
  · simp only [documented, List.map_cons, List.map_nil]
    decide

end Info

end NatsServer
