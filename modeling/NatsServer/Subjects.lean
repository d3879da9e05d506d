/-
# Subject grammar and wildcard matching

Model of `crates/server/src/subjects.rs`: tokenizing a subject on `.`, validity of a
subject or filter, and the match of a filter against a published subject.  The model
works on byte strings, as the source does; a token iterator `s.split(|b| *b == SEP)`
is the list of its tokens.

A filter without a wildcard token matches exactly the subject it is byte-equal to
(`subjectMatches_iff_eq_of_literal`), which is what makes looking such filters up in a hash
map the same as scanning them.  `Legal` and `Covers` say token by token what the two loops
accept (`subject_grammar`).
-/
import Mathlib

namespace NatsServer

/-- A byte string: the contents of a `Bytes`, a `BytesMut` or a `&[u8]`. -/
abbrev Bytes := List UInt8

/-- The bytes of an ASCII literal, `b"..."` in the source. -/
def ascii (s : String) : Bytes := s.toList.map fun c => c.toNat.toUInt8

namespace Subjects

/-! ## The constants of the grammar -/

/-- `.`, the token separator (`SEP`). -/
def sep : UInt8 := 46
/-- `*`, exactly one token (`PWC`). -/
def pwc : UInt8 := 42
/-- `>`, one or more trailing tokens (`FWC`). -/
def fwc : UInt8 := 62
/-- The bytes that may not appear inside a multi-character token
(`ILLEGAL_IN_TOKEN`): tab, LF, FF, CR and space. -/
def illegalInToken : Bytes := [9, 10, 12, 13, 32]

/-- The tokens of a subject. -/
def toks (s : Bytes) : List Bytes := s.splitOn sep

/-- A subject is determined by its tokens. -/
theorem toks_injective : Function.Injective toks := by
  intro s t h
  have hs : [sep].intercalate (s.splitOn sep) = s := List.intercalate_splitOn sep
  have ht : [sep].intercalate (t.splitOn sep) = t := List.intercalate_splitOn sep
  unfold toks at h
  rw [← hs, h, ht]

/-! ## Validity -/

/-- The loop of `is_valid`: `afterFw` is set once a `>` token has been seen. -/
def isValidLoop : Bool → List Bytes → Bool
  | _, [] => true
  | afterFw, tok :: rest =>
      if tok.isEmpty || afterFw then false
      else if tok.length > 1 then
        if tok.any (illegalInToken.contains ·) then false else isValidLoop afterFw rest
      else isValidLoop (tok == [fwc]) rest

/-- Is `s` a legal subject or subscription filter (`is_valid`)? -/
def isValid (s : Bytes) : Bool :=
  if s.isEmpty then false else isValidLoop false (toks s)

/-- Is this token `*` or `>`? -/
def isWildcardTok (tok : Bytes) : Bool := tok == [pwc] || tok == [fwc]

/-- Does `s` contain a wildcard token (`has_wildcard`)? -/
def hasWildcard (s : Bytes) : Bool := (toks s).any isWildcardTok

/-- A publish subject must be legal and literal (`is_valid_publish`). -/
def isValidPublish (s : Bytes) : Bool := isValid s && !hasWildcard s

/-! ## Matching -/

/-- The loop of `matches`: the two token iterators advance in lock step. -/
def matchesLoop : List Bytes → List Bytes → Bool
  | ftok :: f, stok :: s =>
      if ftok = [fwc] then true
      else if ftok ≠ stok ∧ ftok ≠ [pwc] then false
      else matchesLoop f s
  | _ :: _, [] => false
  | [], _ :: _ => false
  | [], [] => true

/-- Does the subscription filter match the published subject (`matches`)? -/
def subjectMatches (filter subject : Bytes) : Bool := matchesLoop (toks filter) (toks subject)

/-- Without a wildcard token, token-wise matching is equality of the token lists. -/
theorem matchesLoop_iff_eq {f : List Bytes} (hf : ∀ tok ∈ f, isWildcardTok tok = false)
    (s : List Bytes) : matchesLoop f s = true ↔ f = s := by
  induction f generalizing s with
  | nil => cases s <;> simp [matchesLoop]
  | cons ftok f ih =>
      have hhead := hf ftok List.mem_cons_self
      simp only [isWildcardTok, Bool.or_eq_false_iff, beq_eq_false_iff_ne] at hhead
      cases s with
      | nil => simp [matchesLoop]
      | cons stok s =>
          have htail := ih (fun tok htok => hf tok (List.mem_cons_of_mem _ htok)) s
          rw [matchesLoop, if_neg hhead.2]
          by_cases heq : ftok = stok
          · rw [if_neg (fun h => h.1 heq), htail]
            simp [heq]
          · rw [if_pos ⟨heq, hhead.1⟩]
            simp [heq]

/-- **Literal filters match by byte equality.**  A filter with no wildcard token matches
exactly one subject, itself, whatever bytes the published subject has. -/
theorem subjectMatches_iff_eq_of_literal {f : Bytes} (hf : hasWildcard f = false) (s : Bytes) :
    subjectMatches f s = true ↔ f = s := by
  unfold hasWildcard at hf
  rw [List.any_eq_false] at hf
  have hf' : ∀ tok ∈ toks f, isWildcardTok tok = false := by
    intro tok htok
    simpa using hf tok htok
  unfold subjectMatches
  rw [matchesLoop_iff_eq hf']
  exact toks_injective.eq_iff

/-! ## The grammar, token by token -/

/-- A legal list of tokens: none is empty, `>` comes last, and a token of more than one byte
has no illegal byte in it. -/
structure Legal (tokens : List Bytes) : Prop where
  nonempty : ∀ tok ∈ tokens, tok ≠ []
  fwc_last : ∀ before after, tokens = before ++ [fwc] :: after → after = []
  clean : ∀ tok ∈ tokens, 1 < tok.length → ∀ b ∈ tok, b ∉ illegalInToken

theorem legal_nil : Legal [] where
  nonempty := List.forall_mem_nil _
  fwc_last := by simp
  clean := List.forall_mem_nil _

/-- A subject is legal if its first token and the rest are. -/
theorem legal_cons {tok : Bytes} {rest : List Bytes} :
    Legal (tok :: rest) ↔ tok ≠ [] ∧ (tok = [fwc] → rest = []) ∧
      (1 < tok.length → ∀ b ∈ tok, b ∉ illegalInToken) ∧ Legal rest := by
  constructor
  · intro h
    refine ⟨h.nonempty tok List.mem_cons_self, ?_, h.clean tok List.mem_cons_self, ?_⟩
    · rintro rfl
      exact h.fwc_last [] rest rfl
    · refine ⟨fun t ht => h.nonempty t (List.mem_cons_of_mem _ ht), ?_,
        fun t ht => h.clean t (List.mem_cons_of_mem _ ht)⟩
      intro before after heq
      exact h.fwc_last (tok :: before) after (by rw [heq, List.cons_append])
  · rintro ⟨hne, hlast, hclean, h⟩
    refine ⟨List.forall_mem_cons.mpr ⟨hne, h.nonempty⟩, ?_,
      List.forall_mem_cons.mpr ⟨hclean, h.clean⟩⟩
    intro before after heq
    cases before with
    | nil =>
        obtain ⟨htok, rfl⟩ := List.cons.inj heq
        exact hlast htok
    | cons t before =>
        obtain ⟨-, heq⟩ := List.cons.inj heq
        exact h.fwc_last before after heq

/-- The loop of `is_valid`: after a `>` there must be nothing left. -/
theorem isValidLoop_iff (afterFw : Bool) (tokens : List Bytes) :
    isValidLoop afterFw tokens = true ↔ (afterFw = true → tokens = []) ∧ Legal tokens := by
  induction tokens generalizing afterFw with
  | nil => simp [isValidLoop, legal_nil]
  | cons tok rest ih =>
      rw [isValidLoop, legal_cons]
      by_cases hstop : (tok.isEmpty || afterFw) = true
      · rw [if_pos hstop]
        simp only [Bool.or_eq_true, List.isEmpty_iff] at hstop
        rcases hstop with rfl | rfl <;> simp
      · rw [if_neg hstop]
        simp only [Bool.or_eq_true, List.isEmpty_iff, not_or, Bool.not_eq_true] at hstop
        obtain ⟨hne, rfl⟩ := hstop
        by_cases hlong : tok.length > 1
        · -- a long token is not `>`, so the flag stays down
          have hfwc : tok ≠ [fwc] := by
            rintro rfl
            exact absurd hlong (by simp)
          rw [if_pos hlong]
          split_ifs with hany
          · simp only [List.any_eq_true, List.contains_iff_mem] at hany
            obtain ⟨b, hb, hbad⟩ := hany
            simp only [false_iff]
            exact fun h => h.2.2.2.1 hlong b hb hbad
          · simp only [List.any_eq_true, List.contains_iff_mem, not_exists, not_and] at hany
            rw [ih]
            simp only [hne, hfwc, not_false_eq_true, ne_eq, false_imp_iff, true_and,
              Bool.false_eq_true]
            exact ⟨fun h => ⟨fun _ => hany, h⟩, And.right⟩
        · rw [if_neg hlong, ih]
          simp [hne, hlong]

/-- The check accepts exactly the legal subjects. -/
theorem isValid_iff_legal (s : Bytes) : isValid s = true ↔ Legal (toks s) := by
  unfold isValid
  split_ifs with hempty
  · rw [List.isEmpty_iff.mp hempty]
    simp only [false_iff]
    exact fun h => h.nonempty [] (by simp [toks]) rfl
  · rw [isValidLoop_iff]
    simp

/-- A token of a filter takes a token of a subject: `*` takes any, every other one itself. -/
def Takes (ftok stok : Bytes) : Prop := ftok = [pwc] ∨ ftok = stok

/-- What a filter matches.  Either there are as many tokens on both sides and each one is
taken; or the filter ends in `>`, the subject is at least as long, and its first tokens are
taken by the filter's other ones. -/
def Covers (f s : List Bytes) : Prop :=
  List.Forall₂ Takes f s ∨
    f.getLast? = some [fwc] ∧ f.length ≤ s.length ∧
      List.Forall₂ Takes f.dropLast (s.take f.dropLast.length)

/-- A token that is not the full wildcard takes one token. -/
theorem covers_cons {ftok stok : Bytes} {f s : List Bytes} (hfwc : ftok ≠ [fwc]) :
    Covers (ftok :: f) (stok :: s) ↔ Takes ftok stok ∧ Covers f s := by
  unfold Covers
  cases f with
  | nil => simp [hfwc]
  | cons g f => simp [and_or_left, and_left_comm]

/-- The loop of `matches`, for a filter in which `>` comes last. -/
theorem matchesLoop_iff_covers {f : List Bytes} (hf : Legal f) (s : List Bytes) :
    matchesLoop f s = true ↔ Covers f s := by
  induction f generalizing s with
  | nil => cases s <;> simp [matchesLoop, Covers]
  | cons ftok f ih =>
      obtain ⟨-, hlast, -, hf⟩ := legal_cons.mp hf
      cases s with
      | nil => simp [matchesLoop, Covers]
      | cons stok s =>
          rw [matchesLoop]
          by_cases hfwc : ftok = [fwc]
          · rw [if_pos hfwc, hlast hfwc, hfwc]
            simp [Covers]
          · rw [if_neg hfwc, covers_cons hfwc]
            split_ifs with hother
            · simp [Takes, hother]
            · have htakes : Takes ftok stok := by
                unfold Takes
                tauto
              rw [ih hf]
              simp [htakes]

/-- **The subject grammar.**  A byte string is a legal subject exactly when its tokens are
legal; and a legal filter matches exactly the subjects whose tokens it covers, whatever
bytes they have. -/
theorem subject_grammar :
    (∀ s, isValid s = true ↔ Legal (toks s)) ∧
      ∀ f, isValid f = true → ∀ s, subjectMatches f s = true ↔ Covers (toks f) (toks s) :=
  ⟨isValid_iff_legal, fun f hf s => matchesLoop_iff_covers ((isValid_iff_legal f).mp hf) (toks s)⟩

/-- `foo.>` is a legal filter; it covers `foo.`, whose last token is empty, and not `foo`. -/
theorem subject_grammar_fwc :
    isValid (ascii "foo.>") = true ∧ Covers (toks (ascii "foo.>")) (toks (ascii "foo.")) ∧
      ¬ Covers (toks (ascii "foo.>")) (toks (ascii "foo")) := by
  have hvalid : isValid (ascii "foo.>") = true := by decide +kernel
  refine ⟨hvalid, (subject_grammar.2 _ hvalid _).mp (by decide +kernel), fun h => ?_⟩
  have := (subject_grammar.2 _ hvalid _).mpr h
  revert this
  decide +kernel

end Subjects

end NatsServer
