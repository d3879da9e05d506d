/-
# The frames the server builds

`Msg`, `push_u64`, `build_frame` and `no_responder_frame` of `routing.rs`: the bytes of a
delivery and of the 503 status.
-/
import NatsServer.Outbox
import Mathlib.Data.Nat.Log

namespace NatsServer

open Proto

/-- A message on its way from a publisher to the registry.  `hdr` is the length of the
header block within `body`. -/
structure Msg where
  subject : Bytes
  reply : Option Bytes
  hdr : ℕ
  body : Bytes
  deriving DecidableEq

namespace Frames

def crlf : Bytes := [13, 10]

/-- The loop of `push_u64`: the digits are laid down from the last one, in the slots left
of a buffer of twenty. -/
def pushU64Loop : ℕ → ℕ → Bytes → Bytes
  | 0, _, acc => acc
  | slots + 1, n, acc =>
      let acc := (48 + n % 10).toUInt8 :: acc
      if n / 10 = 0 then acc else pushU64Loop slots (n / 10) acc

/-- Decimal digits. -/
def pushU64 (n : ℕ) : Bytes := pushU64Loop 20 n []

/-- `MSG <subject> <sid> [reply] <#bytes>` or `HMSG <subject> <sid> [reply] <#hdr> <#total>`,
each with the payload and its terminator.  A subscriber without header support gets the
message without the header block. -/
def buildFrame (supportsHeaders : Bool) (sid : Bytes) (msg : Msg) : Bytes :=
  let headers := msg.hdr > 0 && supportsHeaders
  let body := if msg.hdr > 0 && !headers then msg.body.drop msg.hdr else msg.body
  let reply := msg.reply.getD []
  (if headers then ascii "HMSG " else ascii "MSG ") ++ msg.subject ++ [32] ++ sid ++
    (if reply.isEmpty then [] else [32] ++ reply) ++ [32] ++
    (if headers then pushU64 msg.hdr ++ [32] else []) ++ pushU64 body.length ++ crlf ++
    body ++ crlf

/-- The 503 status frame for an unanswered request. -/
def noResponderFrame (reply sid published : Bytes) : Bytes :=
  let statusLen := 32 + published.length
  ascii "HMSG " ++ reply ++ [32] ++ sid ++
    ([32] ++ pushU64 statusLen ++ [32] ++ pushU64 statusLen ++ crlf) ++
    ascii "NATS/1.0 503\r\nNats-Subject: " ++ published ++ ascii "\r\n\r\n" ++ crlf

/-! ## The digits -/

/-- A digit of the loop. -/
theorem digit_toNat (n : ℕ) : (48 + n % 10).toUInt8.toNat = 48 + n % 10 :=
  UInt8.toNat_ofNat_of_lt' (show 48 + n % 10 < 2 ^ 8 by omega)

/-- The loop writes digits only. -/
theorem isDigit_of_mem_pushU64Loop {slots n : ℕ} {acc : Bytes}
    (hacc : ∀ b ∈ acc, isDigit b = true) :
    ∀ b ∈ pushU64Loop slots n acc, isDigit b = true := by
  induction slots generalizing n acc with
  | zero => exact hacc
  | succ slots ih =>
      have hnext : ∀ b ∈ (48 + n % 10).toUInt8 :: acc, isDigit b = true := by
        refine List.forall_mem_cons.mpr ⟨?_, hacc⟩
        have := digit_toNat n
        simp only [isDigit, Bool.and_eq_true, decide_eq_true_eq, UInt8.le_iff_toNat_le, this]
        exact ⟨by simp, by simp; omega⟩
      unfold pushU64Loop
      simp only
      split_ifs
      · exact hnext
      · exact ih hnext

/-- A number is written with digits only. -/
theorem isDigit_of_mem_pushU64 {n : ℕ} : ∀ b ∈ pushU64 n, isDigit b = true :=
  isDigit_of_mem_pushU64Loop (List.forall_mem_nil _)

/-- Reading the digits from the left. -/
def readDigit (v : ℕ) (b : UInt8) : ℕ := v * 10 + (b.toNat - 48)

/-- The slots suffice: what is laid down reads back, whatever stands behind it. -/
theorem foldl_pushU64Loop {slots n : ℕ} (hn : n < 10 ^ (slots + 1)) (acc : Bytes) :
    (pushU64Loop (slots + 1) n acc).foldl readDigit 0 = acc.foldl readDigit n := by
  induction slots generalizing n acc with
  | zero =>
      have hn' : n / 10 = 0 := by omega
      simp only [pushU64Loop, hn', if_true, List.foldl_cons, readDigit, digit_toNat]
      congr 1
      omega
  | succ slots ih =>
      rw [pushU64Loop]
      split_ifs with hlast
      · simp only [List.foldl_cons, readDigit, digit_toNat]
        congr 1
        omega
      · rw [ih (by rw [pow_succ] at hn; omega)]
        simp only [List.foldl_cons, readDigit, digit_toNat]
        congr 1
        omega

/-- Reading the digits back gives the number. -/
theorem foldl_pushU64 {n : ℕ} (hn : n < 10 ^ 20) : (pushU64 n).foldl readDigit 0 = n :=
  foldl_pushU64Loop hn []

/-- The loop writes in front of what it has written. -/
theorem suffix_pushU64Loop (slots n : ℕ) (acc : Bytes) : acc <:+ pushU64Loop slots n acc := by
  induction slots generalizing n acc with
  | zero => exact List.suffix_refl acc
  | succ slots ih =>
      rw [pushU64Loop]
      split_ifs
      · exact List.suffix_cons _ acc
      · exact (List.suffix_cons _ acc).trans (ih _ _)

/-- A number has a digit. -/
theorem pushU64_ne_nil (n : ℕ) : pushU64 n ≠ [] := by
  rw [pushU64, pushU64Loop]
  split_ifs
  · exact List.cons_ne_nil _ _
  · exact (suffix_pushU64Loop _ _ _).ne_nil (List.cons_ne_nil _ _)

/-- The first digit of a number other than zero is not zero. -/
theorem digit_ne_zero {n : ℕ} (hlast : n / 10 = 0) (hpos : n ≠ 0) :
    some (48 + n % 10).toUInt8 ≠ some 48 := by
  intro heq
  have htoNat := congrArg UInt8.toNat (Option.some.inj heq)
  rw [digit_toNat] at htoNat
  change 48 + n % 10 = 48 at htoNat
  omega

/-- Only zero begins with a zero. -/
theorem head?_pushU64Loop_ne {slots n : ℕ} (hn : n < 10 ^ (slots + 1)) (hpos : n ≠ 0)
    (acc : Bytes) : (pushU64Loop (slots + 1) n acc).head? ≠ some 48 := by
  induction slots generalizing n acc with
  | zero =>
      have hlast : n / 10 = 0 := by omega
      simpa only [pushU64Loop, hlast, if_true, List.head?_cons] using digit_ne_zero hlast hpos
  | succ slots ih =>
      rw [pushU64Loop]
      split_ifs with hlast
      · exact digit_ne_zero hlast hpos
      · exact ih (by rw [pow_succ] at hn; omega) hlast _

/-- Only zero begins with a zero. -/
theorem eq_zero_of_head?_pushU64 {n : ℕ} (hn : n < 10 ^ 20) (h : (pushU64 n).head? = some 48) :
    n = 0 := by
  by_contra hpos
  exact head?_pushU64Loop_ne hn hpos [] h

/-- How many digits there are. -/
theorem length_pushU64Loop (slots n : ℕ) (acc : Bytes) :
    (pushU64Loop slots n acc).length = min slots (Nat.log 10 n + 1) + acc.length := by
  induction slots generalizing n acc with
  | zero => simp [pushU64Loop]
  | succ slots ih =>
      rw [pushU64Loop]
      split_ifs with hlast
      · have hlog : Nat.log 10 n = 0 := Nat.log_of_lt (by omega)
        rw [List.length_cons, hlog]
        omega
      · have hlog : Nat.log 10 n = Nat.log 10 (n / 10) + 1 :=
          Nat.log_of_one_lt_of_le (by decide) (by omega)
        rw [ih, List.length_cons, hlog]
        omega

/-- The number of digits. -/
theorem length_pushU64 (n : ℕ) : (pushU64 n).length = min 20 (Nat.log 10 n + 1) := by
  rw [pushU64, length_pushU64Loop, List.length_nil, Nat.add_zero]

end Frames

end NatsServer
