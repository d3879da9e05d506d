/-
# Sampling a queue group

What `Registry::pick_groups` chooses from a list of matching subscriptions: the plain ones,
and one member of each group.  The choice of a group is `pickMember` of its members
(`membersOf_pickGroups`), a search around the list that starts at a random machine word.
The word wraps in the search, so the search reaches every member only for some starts and
group sizes (`Cyclic.lean`).
-/
import NatsServer.Cyclic
import NatsServer.Route

namespace NatsServer

def plainOf (subs : List Sub) : List Sub := subs.filter fun s => s.queue == none

/-- The members of a group, in the order of the list. -/
def membersOf (group : Bytes) (subs : List Sub) : List Sub :=
  subs.filter fun s => s.queue == some group

/-- What the sampling is for: the plain subscriptions in order, and of each group with an
eligible member exactly one, eligible and with room if there is such a member. -/
structure Sampled (subs : List Sub) (eligible room : Sub → Bool) (out : List Sub) : Prop where
  plain : plainOf out = plainOf subs
  one : ∀ group, (∃ m ∈ membersOf group subs, eligible m = true) →
    ∃ m ∈ membersOf group subs, membersOf group out = [m] ∧ eligible m = true ∧
      ((∃ m' ∈ membersOf group subs, eligible m' = true ∧ room m' = true) → room m = true)
  nobody : ∀ group, (∀ m ∈ membersOf group subs, eligible m = false) → membersOf group out = []

/-- What `pick_groups` outputs for these subscriptions and this random word. -/
def sample (start : ℕ) (eligible room : Sub → Bool) (subs : List Sub) : List Sub :=
  (pickGroups start (fun s => eligible s && room s) eligible [] subs).1

/-- Some member with `p` stands where the search from `start` looks. -/
def Probed (start : ℕ) (members : List Sub) (p : Sub → Bool) : Prop :=
  ∃ j m, members[j]? = some m ∧ Cyclic.Reached (2 ^ 64) start members.length j ∧ p m = true

/-! ## The choice of a group -/

/-- The members of a group carry its name. -/
theorem mem_membersOf {group : Bytes} {subs : List Sub} {m : Sub} :
    m ∈ membersOf group subs ↔ m ∈ subs ∧ m.queue = some group := by
  rw [membersOf, List.mem_filter, beq_iff_eq]

theorem membersOf_append (group : Bytes) (subs subs' : List Sub) :
    membersOf group (subs ++ subs') = membersOf group subs ++ membersOf group subs' :=
  List.filter_append _ _

theorem membersOf_cons_of_ne {group : Bytes} {s : Sub} (h : s.queue ≠ some group)
    (rest : List Sub) : membersOf group (s :: rest) = membersOf group rest :=
  List.filter_cons_of_neg (p := fun s : Sub => s.queue == some group) (by simpa using h)

section Choice

variable {start : ℕ} {ready eligible : Sub → Bool} {groups : List Bytes} {s : Sub}
  {group : Bytes}

/-- A plain subscription is a target. -/
theorem pickGroups_plain (hq : s.queue = none) (rest : List Sub) :
    (pickGroups start ready eligible groups (s :: rest)).1 =
      s :: (pickGroups start ready eligible groups rest).1 := by
  rw [pickGroups]
  split
  · rfl
  · rename_i hq'
    cases hq.symm.trans hq'

/-- A group that was seen before is skipped. -/
theorem pickGroups_seen (hq : s.queue = some group) (hseen : group ∈ groups)
    (rest : List Sub) :
    (pickGroups start ready eligible groups (s :: rest)).1 =
      (pickGroups start ready eligible groups rest).1 := by
  rw [pickGroups]
  split
  · rename_i hq'
    cases hq.symm.trans hq'
  · rename_i hq'
    cases hq.symm.trans hq'
    rw [if_pos (List.contains_iff_mem.mpr hseen)]

/-- A new group gets one of its members picked. -/
theorem pickGroups_new (hq : s.queue = some group) (hnew : group ∉ groups) (rest : List Sub) :
    (pickGroups start ready eligible groups (s :: rest)).1 =
      (pickMember start ready eligible (membersOf group (s :: rest))).toList ++
        (pickGroups start ready eligible (groups ++ [group]) rest).1 := by
  rw [pickGroups]
  split
  · rename_i hq'
    cases hq.symm.trans hq'
  · rename_i hq'
    cases hq.symm.trans hq'
    rw [if_neg (mt List.contains_iff_mem.mp hnew)]
    rfl

/-- The member that is picked is in the group. -/
theorem queue_of_pickMember {subs : List Sub} {m : Sub}
    (h : m ∈ (pickMember start ready eligible (membersOf group subs)).toList) :
    m.queue = some group :=
  (mem_membersOf.mp (mem_of_pickMember (Option.mem_toList.mp h)).1).2

/-- The plain subscriptions are kept. -/
theorem plainOf_pickGroups (groups : List Bytes) (subs : List Sub) :
    plainOf (pickGroups start ready eligible groups subs).1 = plainOf subs := by
  induction subs generalizing groups with
  | nil => rfl
  | cons s rest ih =>
      cases hq : s.queue with
      | none =>
          have hcons : ∀ l, plainOf (s :: l) = s :: plainOf l := fun l =>
            List.filter_cons_of_pos (p := fun s : Sub => s.queue == none) (by simp [hq])
          rw [pickGroups_plain hq, hcons, hcons, ih]
      | some group =>
          have hcons : plainOf (s :: rest) = plainOf rest :=
            List.filter_cons_of_neg (p := fun s : Sub => s.queue == none) (by simp [hq])
          rw [hcons]
          by_cases hseen : group ∈ groups
          · rw [pickGroups_seen hq hseen, ih]
          · have hpick : plainOf (pickMember start ready eligible
                (membersOf group (s :: rest))).toList = [] := by
              refine List.filter_eq_nil_iff.mpr fun m hm => ?_
              simp [queue_of_pickMember hm]
            rw [pickGroups_new hq hseen, plainOf, List.filter_append]
            exact (congrArg₂ (· ++ ·) hpick (ih _)).trans (List.nil_append _)

/-- **The choice of a group** is made once, among all its members. -/
theorem membersOf_pickGroups (group : Bytes) (groups : List Bytes) (subs : List Sub) :
    membersOf group (pickGroups start ready eligible groups subs).1 =
      if group ∈ groups then []
      else (pickMember start ready eligible (membersOf group subs)).toList := by
  induction subs generalizing groups with
  | nil =>
      rw [pickGroups]
      split_ifs <;> rfl
  | cons s rest ih =>
      cases hq : s.queue with
      | none =>
          have hne : s.queue ≠ some group := by simp [hq]
          rw [pickGroups_plain hq, membersOf_cons_of_ne hne, membersOf_cons_of_ne hne, ih]
      | some other =>
          by_cases hseen : other ∈ groups
          · rw [pickGroups_seen hq hseen, ih]
            split_ifs with hmem
            · rfl
            · have hne : s.queue ≠ some group := by
                rw [hq]
                rintro ⟨⟩
                exact hmem hseen
              rw [membersOf_cons_of_ne hne]
          · rw [pickGroups_new hq hseen, membersOf_append, ih]
            by_cases heq : other = group
            · subst heq
              have hself : membersOf other (pickMember start ready eligible
                  (membersOf other (s :: rest))).toList = (pickMember start ready eligible
                  (membersOf other (s :: rest))).toList :=
                List.filter_eq_self.mpr fun m hm => beq_iff_eq.mpr (queue_of_pickMember hm)
              rw [hself, if_pos (by simp), if_neg hseen, List.append_nil]
            · have hne : s.queue ≠ some group := by simpa [hq] using heq
              have hnil : membersOf group (pickMember start ready eligible
                  (membersOf other (s :: rest))).toList = [] := by
                refine List.filter_eq_nil_iff.mpr fun m hm => ?_
                simpa [queue_of_pickMember hm] using heq
              have hmem : group ∈ groups ++ [other] ↔ group ∈ groups := by
                simp [Ne.symm heq]
              rw [hnil, List.nil_append, membersOf_cons_of_ne hne]
              simp only [hmem]

end Choice

/-! ## The search -/

section Search

variable {start : ℕ} {members : List Sub}

/-- The search finds somebody exactly if it looks at somebody. -/
theorem probed_of_probe (hstart : start < 2 ^ 64) (hlen : members.length ≤ 2 ^ 64)
    {p q : Sub → Bool} {m : Sub} (h : probe start members p = some m) (hq : q m = true) :
    Probed start members q := by
  obtain ⟨k, hk, hget⟩ := List.mem_filterMap.mp (List.mem_of_find?_eq_some h)
  have hlt : Cyclic.place (2 ^ 64) start members.length k < members.length :=
    (List.getElem?_eq_some_iff.mp hget).1
  exact ⟨_, m, hget, (Cyclic.reached_iff hstart hlen hlt).mp ⟨k, List.mem_range.mp hk, rfl⟩, hq⟩

/-- A probe that reaches what it looks for finds it. -/
theorem exists_probe_of_probed (hstart : start < 2 ^ 64) (hlen : members.length ≤ 2 ^ 64)
    {p : Sub → Bool} (h : Probed start members p) : ∃ m, probe start members p = some m := by
  obtain ⟨j, m, hget, hreached, hp⟩ := h
  have hlt : j < members.length := (List.getElem?_eq_some_iff.mp hget).1
  obtain ⟨k, hk, hplace⟩ := (Cyclic.reached_iff hstart hlen hlt).mpr hreached
  refine Option.isSome_iff_exists.mp (List.find?_isSome.mpr ⟨m, ?_, hp⟩)
  refine List.mem_filterMap.mpr ⟨k, List.mem_range.mpr hk, ?_⟩
  rw [← hget, ← hplace]
  rfl

/-- A member of the group that the search looks at can take the message if any can. -/
def Fair (start : ℕ) (eligible room : Sub → Bool) (members : List Sub) : Prop :=
  ((∃ m ∈ members, eligible m = true) → Probed start members eligible) ∧
    ((∃ m ∈ members, eligible m = true ∧ room m = true) →
      Probed start members fun s => eligible s && room s)

variable {eligible room : Sub → Bool}

/-- What a fair search returns. -/
theorem pickMember_of_fair (hstart : start < 2 ^ 64) (hlen : members.length ≤ 2 ^ 64)
    (hfair : Fair start eligible room members) (h : ∃ m ∈ members, eligible m = true) :
    ∃ m ∈ members, pickMember start (fun s => eligible s && room s) eligible members = some m ∧
      eligible m = true ∧
      ((∃ m' ∈ members, eligible m' = true ∧ room m' = true) → room m = true) := by
  by_cases hready : ∃ m ∈ members, eligible m = true ∧ room m = true
  · obtain ⟨m, hm⟩ := exists_probe_of_probed hstart hlen (hfair.2 hready)
    obtain ⟨hmem, hp⟩ := mem_of_probe hm
    rw [Bool.and_eq_true] at hp
    exact ⟨m, hmem, by rw [pickMember, hm, Option.some_or], hp.1, fun _ => hp.2⟩
  · obtain ⟨m, hm⟩ := exists_probe_of_probed hstart hlen (hfair.1 h)
    obtain ⟨hmem, hp⟩ := mem_of_probe hm
    have hnone : probe start members (fun s => eligible s && room s) = none := by
      refine Option.eq_none_iff_forall_ne_some.mpr fun m' hm' => ?_
      obtain ⟨hmem', hp'⟩ := mem_of_probe hm'
      rw [Bool.and_eq_true] at hp'
      exact hready ⟨m', hmem', hp'⟩
    exact ⟨m, hmem, by rw [pickMember, hnone, Option.none_or, hm], hp,
      fun hready' => absurd hready' hready⟩

/-- And what it takes to return that. -/
theorem fair_of_pickMember (hstart : start < 2 ^ 64) (hlen : members.length ≤ 2 ^ 64) {m : Sub}
    (hpick : pickMember start (fun s => eligible s && room s) eligible members = some m)
    (hroom : (∃ m' ∈ members, eligible m' = true ∧ room m' = true) → room m = true) :
    Fair start eligible room members := by
  have helig : eligible m = true := by
    rcases (mem_of_pickMember hpick).2 with h | h
    · exact (Bool.and_eq_true_iff.mp h).1
    · exact h
  have hprobed : ∀ q : Sub → Bool, q m = true → Probed start members q := by
    intro q hq
    rcases Option.or_eq_some_iff.mp hpick with h | ⟨-, h⟩
    · exact probed_of_probe hstart hlen h hq
    · exact probed_of_probe hstart hlen h hq
  refine ⟨fun _ => hprobed _ helig, fun hready => hprobed _ ?_⟩
  rw [helig, hroom hready]
  rfl

end Search

/-! ## What is chosen -/

section Chosen

variable {start : ℕ} {subs : List Sub} {eligible room : Sub → Bool}

theorem length_membersOf_le (group : Bytes) (subs : List Sub) :
    (membersOf group subs).length ≤ subs.length :=
  List.length_filter_le _ _

/-- The sample serves every group exactly if the probe is fair to each. -/
theorem sampled_iff_fair (hstart : start < 2 ^ 64) (hlen : subs.length ≤ 2 ^ 64) :
    Sampled subs eligible room (sample start eligible room subs) ↔
      ∀ group, Fair start eligible room (membersOf group subs) := by
  have hlen' : ∀ group, (membersOf group subs).length ≤ 2 ^ 64 := fun group =>
    (length_membersOf_le group subs).trans hlen
  have hchoice : ∀ group, membersOf group (sample start eligible room subs) =
      (pickMember start (fun s => eligible s && room s) eligible
        (membersOf group subs)).toList := by
    intro group
    rw [sample, membersOf_pickGroups, if_neg List.not_mem_nil]
  constructor
  · intro h group
    by_cases helig : ∃ m ∈ membersOf group subs, eligible m = true
    · obtain ⟨m, -, hone, -, hroom⟩ := h.one group helig
      rw [hchoice, Option.toList_eq_singleton_iff] at hone
      exact fair_of_pickMember hstart (hlen' group) hone hroom
    · refine ⟨fun h => absurd h helig, ?_⟩
      rintro ⟨m, hm, hel, -⟩
      exact absurd ⟨m, hm, hel⟩ helig
  · intro hfair
    refine ⟨plainOf_pickGroups [] subs, fun group helig => ?_, fun group hnobody => ?_⟩
    · obtain ⟨m, hmem, hpick, hel, hroom⟩ :=
        pickMember_of_fair hstart (hlen' group) (hfair group) helig
      exact ⟨m, hmem, by rw [hchoice, hpick, Option.toList_some], hel, hroom⟩
    · rw [hchoice, Option.toList_eq_nil_iff, Option.eq_none_iff_forall_ne_some]
      intro m hm
      obtain ⟨hmem, hcan⟩ := mem_of_pickMember hm
      rw [hnobody m hmem, Bool.false_and] at hcan
      exact absurd hcan (by simp)

/-- A probe that goes all the way round is fair. -/
theorem fair_of_full (hstart : start < 2 ^ 64) {members : List Sub}
    (h : Cyclic.Full (2 ^ 64) start members.length) : Fair start eligible room members := by
  have hprobed : ∀ p : Sub → Bool, ∀ m ∈ members, p m = true → Probed start members p := by
    intro p m hm hp
    obtain ⟨j, hj⟩ := List.mem_iff_getElem?.mp hm
    exact ⟨j, m, hj, Cyclic.reached_of_full hstart h (List.getElem?_eq_some_iff.mp hj).1, hp⟩
  constructor
  · rintro ⟨m, hm, hel⟩
    exact hprobed _ m hm hel
  · rintro ⟨m, hm, hel, hroom⟩
    exact hprobed _ m hm (Bool.and_eq_true_iff.mpr ⟨hel, hroom⟩)

/-- If whoever alone is eligible is found, the search misses no place. -/
theorem full_of_fair (hstart : start < 2 ^ 64) {members : List Sub} (hnd : members.Nodup)
    (h : ∀ eligible, Fair start eligible (fun _ => true) members) :
    Cyclic.Full (2 ^ 64) start members.length := by
  refine (Cyclic.forall_reached_iff hstart).mp fun j hj => ?_
  obtain ⟨j', m, hget, hreached, hm⟩ := (h (· == members[j])).1
    ⟨members[j], List.getElem_mem hj, beq_self_eq_true _⟩
  obtain ⟨hj', hget⟩ := List.getElem?_eq_some_iff.mp hget
  have hsame : j' = j := (hnd.getElem_inj_iff).mp (hget.trans (beq_iff_eq.mp hm))
  exact hsame ▸ hreached

/-- **Sampling.**  The choice is as it should be exactly if in each group the search looks at
an eligible member when there is one, and at one with room when there is one.  It is so
whoever is eligible and has room exactly if in each group the word does not wrap in the
search, or the group's size divides its range. -/
theorem sample_sampled_iff (hstart : start < 2 ^ 64) (hlen : subs.length ≤ 2 ^ 64) :
    (∀ eligible room, Sampled subs eligible room (sample start eligible room subs) ↔
      ∀ group, Fair start eligible room (membersOf group subs)) ∧
    ((∀ group, Cyclic.Full (2 ^ 64) start (membersOf group subs).length) →
      ∀ eligible room, Sampled subs eligible room (sample start eligible room subs)) ∧
    (subs.Nodup →
      (∀ eligible room, Sampled subs eligible room (sample start eligible room subs)) →
      ∀ group, Cyclic.Full (2 ^ 64) start (membersOf group subs).length) := by
  refine ⟨fun eligible room => sampled_iff_fair hstart hlen, ?_, ?_⟩
  · intro hfull eligible room
    exact (sampled_iff_fair hstart hlen).mpr fun group => fair_of_full hstart (hfull group)
  · intro hnd hall group
    refine full_of_fair hstart (hnd.filter _) fun eligible => ?_
    exact (sampled_iff_fair hstart hlen).mp (hall eligible fun _ => true) group

end Chosen

/-- A subscription to `a` with this number and group. -/
def memberNo (id : ℕ) (queue : Option Bytes) : Sub :=
  Sub.new id (ascii "a") queue (Frames.pushU64 id) id

/-- Two plain subscriptions around a group of two whose first member is not eligible, sampled
from the largest word. -/
theorem sampled_of_two :
    Sampled
      [memberNo 0 none, memberNo 1 (some (ascii "q")), memberNo 2 (some (ascii "q")),
        memberNo 3 none]
      (fun s => s.id != 1) (fun _ => true)
      (sample (2 ^ 64 - 1) (fun s => s.id != 1) (fun _ => true)
        [memberNo 0 none, memberNo 1 (some (ascii "q")), memberNo 2 (some (ascii "q")),
          memberNo 3 none]) := by
  refine (sample_sampled_iff (by decide) (by decide)).2.1 (fun group => ?_) _ _
  by_cases hq : group = ascii "q"
  · subst hq
    exact Or.inr (by decide +kernel)
  · have hnil : membersOf group [memberNo 0 none, memberNo 1 (some (ascii "q")),
        memberNo 2 (some (ascii "q")), memberNo 3 none] = [] := by
      refine List.filter_eq_nil_iff.mpr ?_
      simp [memberNo, Sub.new, Ne.symm hq]
    rw [hnil]
    exact Or.inl (by decide)

/-- A group of three of which only the last member is eligible: from the largest word the
search looks at the first member twice, at the second, and not at the third. -/
theorem sample_misses_third :
    sample (2 ^ 64 - 1) (fun s => s.id == 2) (fun _ => true)
      [memberNo 0 (some (ascii "q")), memberNo 1 (some (ascii "q")),
        memberNo 2 (some (ascii "q"))] = [] := by
  decide +kernel

end NatsServer
