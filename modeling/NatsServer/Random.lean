/-
# The generator of random words

`Rng` of `nuid.rs` is splitmix64: the state is a counter with an odd step, and a draw mixes it
without loss.  The registry draws from one generator the word at which the search for a member
of a queue group starts.  Over a period every word comes up once, so no member that can take a
message is passed over in a whole period, and a group whose members can all take it shares the
messages evenly (`group_turns`).

The server's identifier comes from a generator of its own: it has the shape of a server key,
and each of its letters is as likely as any other over the seeds (`server_id_letters`).  The
seed itself is taken from the process and the clock and is not modelled.
-/
import NatsServer.Groups
import NatsServer.Mixing

namespace NatsServer

structure Rng where
  state : BitVec 64
  deriving DecidableEq

namespace Rng

/-- The step of the counter, and the factor that spreads the seed. -/
def golden : BitVec 64 := 0x9E3779B97F4A7C15#64

/-- `Rng::new` for this seed. -/
def new (seed : BitVec 64) : Rng := ⟨(seed * golden).rotateLeft 17⟩

def nextU64 (r : Rng) : BitVec 64 × Rng :=
  let state := r.state + golden
  let z := state
  let z := (z ^^^ (z >>> 30)) * 0xBF58476D1CE4E5B9#64
  let z := (z ^^^ (z >>> 27)) * 0x94D049BB133111EB#64
  (z ^^^ (z >>> 31), ⟨state⟩)

/-- The generator after `n` draws. -/
def after (r : Rng) (n : ℕ) : Rng := (fun r : Rng => r.nextU64.2)^[n] r

/-- The `n`th draw, counted from zero. -/
def draw (r : Rng) (n : ℕ) : BitVec 64 := (r.after n).nextU64.1

/-- How many draws of a period satisfy `p`. -/
def turns (r : Rng) (p : ℕ → Prop) [DecidablePred p] : ℕ :=
  ((Finset.range (2 ^ 64)).filter fun k => p (r.draw k).toNat).card

/-! ## The draws of a period -/

/-- What `next_u64` makes of the counter. -/
def mix (z : BitVec 64) : BitVec 64 :=
  Mixing.xorShift 31 (Mixing.xorShift 27
    (Mixing.xorShift 30 z * 0xBF58476D1CE4E5B9#64) * 0x94D049BB133111EB#64)

/-- One draw moves the counter on and mixes it. -/
theorem nextU64_eq (r : Rng) : r.nextU64 = (mix (r.state + golden), ⟨r.state + golden⟩) := rfl

/-- The step of the counter is odd, and so invertible. -/
theorem golden_inverse : golden * 17428512612931826493#64 = 1#64 := by decide +kernel

/-- Mixing loses nothing. -/
theorem mix_injective : Function.Injective mix := by
  have hfirst : Function.Injective fun z : BitVec 64 => z * 0xBF58476D1CE4E5B9#64 :=
    Mixing.mul_injective (d := 10871156337175269513#64) (by decide +kernel)
  have hsecond : Function.Injective fun z : BitVec 64 => z * 0x94D049BB133111EB#64 :=
    Mixing.mul_injective (d := 3573116690164977347#64) (by decide +kernel)
  exact (Mixing.xorShift_injective (by decide)).comp
    (hsecond.comp ((Mixing.xorShift_injective (by decide)).comp
      (hfirst.comp (Mixing.xorShift_injective (by decide)))))

theorem after_succ (r : Rng) (n : ℕ) : r.after (n + 1) = after ⟨r.state + golden⟩ n := by
  rw [after, Function.iterate_succ_apply, nextU64_eq, after]

/-- The state is a counter. -/
theorem state_after (r : Rng) (n : ℕ) : (r.after n).state = Mixing.counter golden r.state n := by
  induction n generalizing r with
  | zero => exact (Mixing.counter_zero golden r.state).symm
  | succ n ih => rw [after_succ, ih, Mixing.counter_succ]

/-- A draw is the mixed counter. -/
theorem draw_eq (r : Rng) (n : ℕ) :
    r.draw n = mix (Mixing.counter golden (r.state + golden) n) := by
  rw [draw, nextU64_eq, state_after]
  simp only [Mixing.counter, BitVec.add_assoc, BitVec.add_comm golden]

/-- Every word is drawn once in a period. -/
theorem turns_eq (r : Rng) (p : ℕ → Prop) [DecidablePred p] :
    r.turns p = ((Finset.range (2 ^ 64)).filter p).card := by
  rw [turns, ← Mixing.card_draws golden_inverse (r.state + golden) mix_injective p]
  simp only [draw_eq]

/-- What implies something comes up no more often. -/
theorem turns_mono (r : Rng) {p q : ℕ → Prop} [DecidablePred p] [DecidablePred q]
    (h : ∀ x < 2 ^ 64, p x → q x) : r.turns p ≤ r.turns q := by
  refine Finset.card_le_card fun k hk => ?_
  obtain ⟨hrange, hp⟩ := Finset.mem_filter.mp hk
  exact Finset.mem_filter.mpr ⟨hrange, h _ (r.draw k).isLt hp⟩

end Rng

/-! ## Who gets the messages of a queue group -/

section Choice

variable {start : ℕ} {ready eligible : Sub → Bool} {members : List Sub} {m : Sub}

/-- The search stops at once if the member at the start is ready. -/
theorem pickMember_of_ready (hstart : start < 2 ^ 64)
    (hm : members[start % members.length]? = some m) (hready : ready m = true) :
    pickMember start ready eligible members = some m := by
  have hpos : 0 < members.length := by
    obtain ⟨hlt, -⟩ := List.getElem?_eq_some_iff.mp hm
    omega
  have hprobe : probe start members ready = some m := by
    rw [probe, List.range_eq_range', ← Nat.sub_add_cancel hpos, List.range'_succ,
      List.filterMap_cons_some (b := m), List.find?_cons_of_pos hready]
    rwa [Nat.sub_add_cancel hpos, Nat.add_zero, Nat.mod_eq_of_lt hstart]
  rw [pickMember, hprobe, Option.some_or]

/-- If all members are ready the start decides. -/
theorem pickMember_eq_getElem (hstart : start < 2 ^ 64)
    (hready : ∀ m ∈ members, ready m = true) :
    pickMember start ready eligible members = members[start % members.length]? := by
  cases hm : members[start % members.length]? with
  | none =>
      have hnil : members = [] := by
        by_contra hne
        have hlt := Nat.mod_lt start (List.length_pos_iff.mpr hne)
        simp [List.getElem?_eq_getElem hlt] at hm
      subst hnil
      rfl
  | some m => exact pickMember_of_ready hstart hm (hready m (List.mem_of_getElem? hm))

end Choice

section Turns

variable {sv : Server} {sender : ℕ} {msg : Msg} {interest : Interest} {group : Bytes} {m : Sub}

/-- A member is on the route exactly if it was picked. -/
theorem mem_routeList_iff (hcache : interest.Answers sv.reg msg.subject)
    (hq : m.queue = some group) (start : ℕ) :
    m ∈ (sv.routeList msg sender start interest).1 ↔
      pickMember start (fun s => sv.eligible sender s && sv.hasRoom s.conn) (sv.eligible sender)
        (membersOf group (sv.reg.inner.resolveList msg.subject)) = some m := by
  rw [← Option.mem_toList, ← membersOf_routeList hcache, mem_membersOf]
  exact (and_iff_left hq).symm

/-- **The members of a queue group take turns.**  Of the `2 ^ 64` starts of a period, at least
one in `n` rounded down gives the message to a member that is ready, `n` being the size of the
group; and at most one in `n` rounded up if all members are ready. -/
theorem group_turns (r : Rng) (hv : sv.reg.inner.Valid)
    (hcache : interest.Answers sv.reg msg.subject)
    (hm : m ∈ membersOf group (sv.reg.inner.resolveList msg.subject))
    (hready : (sv.eligible sender m && sv.hasRoom m.conn) = true) :
    2 ^ 64 / (membersOf group (sv.reg.inner.resolveList msg.subject)).length ≤
      r.turns (fun start => m ∈ (sv.routeList msg sender start interest).1) ∧
    ((∀ m' ∈ membersOf group (sv.reg.inner.resolveList msg.subject),
        (sv.eligible sender m' && sv.hasRoom m'.conn) = true) →
      r.turns (fun start => m ∈ (sv.routeList msg sender start interest).1) ≤
        2 ^ 64 / (membersOf group (sv.reg.inner.resolveList msg.subject)).length + 1) := by
  have hq : m.queue = some group := (mem_membersOf.mp hm).2
  have hnd : (membersOf group (sv.reg.inner.resolveList msg.subject)).Nodup :=
    ((hv.resolveList_nodup msg.subject).of_map).filter _
  simp only [mem_routeList_iff hcache hq]
  generalize membersOf group (sv.reg.inner.resolveList msg.subject) = members at *
  obtain ⟨j, hj, hjm⟩ := List.getElem_of_mem hm
  -- the words whose remainder is the place of the member
  have hcount : r.turns (fun start => start % members.length = j) =
      2 ^ 64 / members.length + if j < 2 ^ 64 % members.length then 1 else 0 := by
    rw [Rng.turns_eq, Mixing.card_mod_eq (2 ^ 64) hj]
  constructor
  · refine le_trans (by rw [hcount]; omega) (r.turns_mono
      (p := fun start => start % members.length = j) fun start hstart hmod => ?_)
    refine pickMember_of_ready hstart ?_ hready
    rw [hmod, List.getElem?_eq_getElem hj, hjm]
  · intro hall
    refine le_trans (r.turns_mono (q := fun start => start % members.length = j)
      fun start hstart hpick => ?_) (by rw [hcount]; split_ifs <;> omega)
    rw [pickMember_eq_getElem hstart hall] at hpick
    obtain ⟨hlt, heq⟩ := List.getElem?_eq_some_iff.mp hpick
    exact (hnd.getElem_inj_iff).mp (heq.trans hjm.symm)

/-- Two members of a group on `a`, both with room. -/
theorem group_turns_pair :
    2 ^ 63 ≤ (Rng.new 7).turns (fun start =>
        Sub.new 0 (ascii "a") (some (ascii "q")) (ascii "1") 1 ∈
          (pairOnA.routeList ⟨ascii "a", none, 0, ascii "x"⟩ 0 start {}).1) ∧
      (Rng.new 7).turns (fun start =>
        Sub.new 0 (ascii "a") (some (ascii "q")) (ascii "1") 1 ∈
          (pairOnA.routeList ⟨ascii "a", none, 0, ascii "x"⟩ 0 start {}).1) ≤ 2 ^ 63 + 1 := by
  have hleads : ({ conn := Conn.accepted Config.sample } : Server).Leads pairOnA :=
    ((leads_handleSubscribe _ 1 _ _ _).trans (leads_handleSubscribe _ 2 _ _ _)).trans
      (leads_handleSubscribe _ 1 _ _ _)
  have hv : pairOnA.reg.inner.Valid :=
    hleads.invariant (I := fun sv : Server => sv.reg.inner.Valid) Inner.valid_default
      fun _ e h => Server.valid_reg_apply h e
  have hlen : (membersOf (ascii "q") (pairOnA.reg.inner.resolveList (ascii "a"))).length = 2 := by
    decide +kernel
  have hcache : Interest.Answers {} pairOnA.reg (Msg.mk (ascii "a") none 0 (ascii "x")).subject :=
    Interest.answers_of_stale (by decide +kernel)
  have hm : Sub.new 0 (ascii "a") (some (ascii "q")) (ascii "1") 1 ∈
      membersOf (ascii "q") (pairOnA.reg.inner.resolveList (ascii "a")) := by decide +kernel
  have hready : ∀ m ∈ membersOf (ascii "q") (pairOnA.reg.inner.resolveList (ascii "a")),
      (pairOnA.eligible 0 m && pairOnA.hasRoom m.conn) = true := by decide +kernel
  have hturns := group_turns (Rng.new 7) hv hcache hm (hready _ hm)
  rw [hlen, show 2 ^ 64 / 2 = 2 ^ 63 by norm_num] at hturns
  exact ⟨hturns.1, hturns.2 hready⟩

end Turns

/-! ## The server's identifier -/

/-- The letters of base 32, as server keys use them. -/
def alphabet : List Char := "ABCDEFGHIJKLMNOPQRSTUVWXYZ234567".toList

/-- `ALPHABET[i]` for a word that is drawn. -/
def letterOf (x : BitVec 64) : Char :=
  alphabet.get ⟨x.toNat % alphabet.length, Nat.mod_lt _ (by decide)⟩

/-- The loop of `server_id`. -/
def letters : ℕ → Rng → List Char × Rng
  | 0, r => ([], r)
  | n + 1, r =>
      let (x, r) := r.nextU64
      let (rest, r) := letters n r
      (letterOf x :: rest, r)

/-- `server_id`: `N` and fifty-five letters. -/
def serverId (r : Rng) : String × Rng :=
  let (rest, r) := letters 55 r
  (String.ofList ('N' :: rest), r)

theorem Rng.draw_succ (r : Rng) (n : ℕ) : r.draw (n + 1) = r.nextU64.2.draw n := by
  rw [Rng.draw, Rng.after_succ, Rng.draw, Rng.nextU64_eq r]

/-- The letters are those of the draws. -/
theorem letters_eq (n : ℕ) (r : Rng) :
    (letters n r).1 = (List.range n).map fun k => letterOf (r.draw k) := by
  induction n generalizing r with
  | zero => rfl
  | succ n ih =>
      rw [letters, List.range_succ_eq_map, List.map_cons, List.map_map]
      simp only [ih, Function.comp_def, Nat.succ_eq_add_one, Rng.draw_succ]
      rfl

/-- The identifier, letter by letter. -/
theorem toList_serverId (r : Rng) :
    (serverId r).1.toList = 'N' :: (List.range 55).map fun k => letterOf (r.draw k) := by
  rw [← letters_eq]
  exact String.toList_ofList

/-- A letter comes up for one remainder of the draw. -/
theorem letterOf_eq_iff {x : BitVec 64} {j : ℕ} {c : Char} (hc : alphabet[j]? = some c) :
    letterOf x = c ↔ x.toNat % 32 = j := by
  have hnd : alphabet.Nodup := by decide
  obtain ⟨hj, rfl⟩ := List.getElem?_eq_some_iff.mp hc
  exact hnd.getElem_inj_iff

/-- No two seeds give the same word at a draw. -/
theorem draw_new_injective (k : ℕ) : Function.Injective fun seed => (Rng.new seed).draw k := by
  have hstate : Function.Injective fun seed : BitVec 64 => (seed * Rng.golden).rotateLeft 17 :=
    (Mixing.rotateLeft_injective 17).comp (Mixing.mul_injective Rng.golden_inverse)
  have hdraw : (fun seed => (Rng.new seed).draw k) = fun seed : BitVec 64 =>
      Rng.mix ((seed * Rng.golden).rotateLeft 17 + Rng.golden +
        BitVec.ofNat 64 k * Rng.golden) := by
    funext seed
    rw [Rng.draw_eq, Mixing.counter, Rng.new]
  rw [hdraw]
  exact Rng.mix_injective.comp ((Mixing.add_injective _).comp
    ((Mixing.add_injective _).comp hstate))

/-- **The identifier** has the shape of a server key, fifty-six letters of base 32 of which the
first is `N`; and at every other place each letter comes from the same number of seeds. -/
theorem server_id_letters :
    (∀ r, (serverId r).1.toList.length = 56 ∧ (serverId r).1.toList.head? = some 'N' ∧
      ∀ c ∈ (serverId r).1.toList, c ∈ alphabet) ∧
    ∀ k < 55, ∀ c ∈ alphabet, ((Finset.range (2 ^ 64)).filter fun seed =>
      (serverId (Rng.new (BitVec.ofNat 64 seed))).1.toList[k + 1]? = some c).card = 2 ^ 59 := by
  constructor
  · intro r
    rw [toList_serverId]
    refine ⟨by simp, rfl, ?_⟩
    intro c hc
    rcases List.mem_cons.mp hc with rfl | hc
    · decide
    · obtain ⟨k, -, rfl⟩ := List.mem_map.mp hc
      exact List.get_mem _ _
  · intro k hk c hc
    obtain ⟨j, hj⟩ := List.mem_iff_getElem?.mp hc
    have hj32 : j < 32 := (List.getElem?_eq_some_iff.mp hj).1
    have hat : ∀ seed : BitVec 64, (serverId (Rng.new seed)).1.toList[k + 1]? = some c ↔
        ((Rng.new seed).draw k).toNat % 32 = j := by
      intro seed
      rw [toList_serverId, List.getElem?_cons_succ, List.getElem?_map,
        List.getElem?_range hk, Option.map_some, Option.some.injEq]
      exact letterOf_eq_iff hj
    simp only [hat]
    rw [Mixing.card_values (draw_new_injective k) (fun x => x % 32 = j),
      Mixing.card_mod_eq (2 ^ 64) hj32]
    norm_num

end NatsServer
