/-
# Bump allocation in chunks

An arena hands out pieces of memory one behind the other.  It writes to a buffer, and when the
room left there is less than what a piece may need it goes on in a fresh buffer, at least as large
as asked for.  What is split off becomes a view, which keeps its chunk alive.

The buffers are a parameter.  `Buffers` has their operations and what is relied on: nothing is
said about a write without the room for it but that the buffer holds it, and that the views keep
what they show.  `Arena.buffers` is an implementation in which the pieces of a chunk do lie behind
each other.

A piece of at most the size asked for takes at most one chunk (`old_length_lay_le`) and is read
back (`read_lay_self`), as is every earlier one (`keeps_lay`).  The chunks behind any one hold at
least half of what they could, up to a constant for each chunk and one chunk more
(`Dense.sum_cap_drop_le`).
-/
import Mathlib.Algebra.BigOperators.Group.List.Basic
import Mathlib.Data.List.Chain
import Mathlib.Tactic.Common
import Mathlib.Tactic.Ring

namespace Bump

/-- One allocation: its capacity, and how much of it has been written to. -/
structure Chunk where
  cap : ℕ
  used : ℕ := 0

/-- Buffers that what was written is split off from.  A state is a buffer with the memory it is
in, and `ν` is the type of the views. -/
structure Buffers (α σ ν : Type*) where
  /-- A buffer without room. -/
  new : σ
  /-- A fresh buffer in place of the one that is there. -/
  withCapacity : σ → ℕ → σ
  putSlice : σ → List α → σ
  /-- Hand over what is in the buffer, which keeps the room behind it. -/
  split : σ → ν × σ
  capacity : σ → ℕ
  len : σ → ℕ
  read : σ → ν → List α
  viewLen : ν → ℕ
  /-- What is in the buffer. -/
  written : σ → List α
  /-- The chunks of the buffers before this one. -/
  old : σ → List Chunk
  /-- The chunk of this buffer. -/
  cur : σ → Chunk
  /-- The chunk that a view is in, by its number. -/
  chunk : ν → ℕ
  /-- The view was split off before. -/
  Kept : σ → ν → Prop
  /-- The capacity of a buffer that is asked for. -/
  granted : ℕ → ℕ
  le_granted : ∀ n, n ≤ granted n
  room_eq : ∀ s, capacity s - len s = (cur s).cap - (cur s).used
  written_new : written new = []
  old_new : old new = []
  cur_new : cur new = { cap := 0 }
  written_withCapacity : ∀ s n, written (withCapacity s n) = []
  old_withCapacity : ∀ s n, old (withCapacity s n) = old s ++ [cur s]
  cur_withCapacity : ∀ s n, cur (withCapacity s n) = { cap := granted n }
  kept_withCapacity : ∀ s n v, Kept s v →
    Kept (withCapacity s n) v ∧ read (withCapacity s n) v = read s v
  written_putSlice : ∀ s xs, written (putSlice s xs) = written s ++ xs
  old_putSlice : ∀ s xs, xs.length ≤ capacity s - len s → old (putSlice s xs) = old s
  cur_putSlice : ∀ s xs, xs.length ≤ capacity s - len s →
    cur (putSlice s xs) = { cur s with used := (cur s).used + xs.length }
  kept_putSlice : ∀ s xs v, Kept s v → Kept (putSlice s xs) v ∧ read (putSlice s xs) v = read s v
  written_split : ∀ s, written (split s).2 = []
  old_split : ∀ s, old (split s).2 = old s
  cur_split : ∀ s, cur (split s).2 = cur s
  chunk_split : ∀ s, chunk (split s).1 = (old s).length
  kept_split_self : ∀ s, Kept (split s).2 (split s).1
  read_split_self : ∀ s, read (split s).2 (split s).1 = written s
  kept_split : ∀ s v, Kept s v → Kept (split s).2 v ∧ read (split s).2 v = read s v
  length_read : ∀ s v, Kept s v → (read s v).length = viewLen v

namespace Buffers

variable {α σ ν : Type*} (B : Buffers α σ ν)

/-- All chunks, with the current one last. -/
def chunks (s : σ) : List Chunk := B.old s ++ [B.cur s]

/-- Room for `need` elements, in the current chunk if it has that much left. -/
def tail (size need : ℕ) (s : σ) : σ :=
  if B.capacity s - B.len s < need then B.withCapacity s (max need size) else s

/-- Ask for room, write the pieces and hand them over. -/
def lay (size need : ℕ) (pieces : List (List α)) (s : σ) : ν × σ :=
  B.split (pieces.foldl B.putSlice (B.tail size need s))

/-- Every view that there is shows the same in `s'`. -/
def Keeps (s s' : σ) : Prop := ∀ v, B.Kept s v → B.Kept s' v ∧ B.read s' v = B.read s v

/-! ## Laying down a piece -/

variable {B} {s : σ} {size need : ℕ} {pieces : List (List α)}

/-- Views that are kept twice are kept. -/
theorem Keeps.trans {s' s'' : σ} (h : B.Keeps s s') (h' : B.Keeps s' s'') : B.Keeps s s'' :=
  fun v hv => ⟨(h' v (h v hv).1).1, (h' v (h v hv).1).2.trans (h v hv).2⟩

/-- Taking a fresh buffer keeps the views. -/
theorem keeps_tail (B : Buffers α σ ν) (size need : ℕ) (s : σ) :
    B.Keeps s (B.tail size need s) := by
  unfold tail
  split_ifs
  · exact B.kept_withCapacity s _
  · exact fun v hv => ⟨hv, rfl⟩

/-- Writing keeps the views. -/
theorem keeps_foldl_putSlice (B : Buffers α σ ν) (pieces : List (List α)) (s : σ) :
    B.Keeps s (pieces.foldl B.putSlice s) := by
  induction pieces generalizing s with
  | nil => exact fun v hv => ⟨hv, rfl⟩
  | cons xs pieces ih => exact Keeps.trans (B.kept_putSlice s xs) (ih _)

/-- **Every earlier piece reads the same.** -/
theorem keeps_lay (B : Buffers α σ ν) (size need : ℕ) (pieces : List (List α)) (s : σ) :
    B.Keeps s (B.lay size need pieces s).2 :=
  ((B.keeps_tail size need s).trans (B.keeps_foldl_putSlice pieces _)).trans (B.kept_split _)

/-- The buffer that is asked for is empty if the one before was. -/
theorem written_tail (h : B.written s = []) : B.written (B.tail size need s) = [] := by
  unfold tail
  split_ifs
  · exact B.written_withCapacity s _
  · exact h

/-- The pieces are in the buffer one behind the other. -/
theorem written_foldl_putSlice (B : Buffers α σ ν) (pieces : List (List α)) (s : σ) :
    B.written (pieces.foldl B.putSlice s) = B.written s ++ pieces.flatten := by
  induction pieces generalizing s with
  | nil => simp
  | cons xs pieces ih => simp [ih, B.written_putSlice, List.append_assoc]

/-- The piece that was laid down. -/
theorem read_lay_self (h : B.written s = []) :
    B.read (B.lay size need pieces s).2 (B.lay size need pieces s).1 = pieces.flatten := by
  rw [lay, B.read_split_self, written_foldl_putSlice, written_tail h, List.nil_append]

/-- The buffer has the room that was asked for. -/
theorem le_room_tail (B : Buffers α σ ν) (size need : ℕ) (s : σ) :
    need ≤ (B.cur (B.tail size need s)).cap - (B.cur (B.tail size need s)).used := by
  rw [← B.room_eq]
  unfold tail
  split_ifs with hroom
  · rw [B.room_eq, B.cur_withCapacity]
    exact (le_max_left need size).trans (B.le_granted _)
  · exact not_lt.mp hroom

/-- With the room for all of them, the pieces stay in the chunk. -/
theorem cur_foldl_putSlice (h : pieces.flatten.length ≤ (B.cur s).cap - (B.cur s).used) :
    B.old (pieces.foldl B.putSlice s) = B.old s ∧
      B.cur (pieces.foldl B.putSlice s) =
        { B.cur s with used := (B.cur s).used + pieces.flatten.length } := by
  induction pieces generalizing s with
  | nil => exact ⟨rfl, rfl⟩
  | cons xs pieces ih =>
      rw [List.flatten_cons, List.length_append] at h
      have hxs : xs.length ≤ B.capacity s - B.len s := by
        rw [B.room_eq]
        omega
      have hcur := B.cur_putSlice s xs hxs
      obtain ⟨hold, hrest⟩ := ih (s := B.putSlice s xs) (by
        rw [hcur]
        simp only
        omega)
      rw [List.foldl_cons]
      refine ⟨hold.trans (B.old_putSlice s xs hxs), hrest.trans ?_⟩
      rw [hcur, List.flatten_cons, List.length_append, Nat.add_assoc]

/-- **A piece stays in the chunk** that has the room asked for. -/
theorem cur_lay (hneed : pieces.flatten.length ≤ need) :
    B.old (B.lay size need pieces s).2 = B.old (B.tail size need s) ∧
      B.cur (B.lay size need pieces s).2 =
        { B.cur (B.tail size need s) with
          used := (B.cur (B.tail size need s)).used + pieces.flatten.length } := by
  rw [lay, B.old_split, B.cur_split]
  exact cur_foldl_putSlice (hneed.trans (B.le_room_tail size need s))

theorem chunk_lay_self (B : Buffers α σ ν) (size need : ℕ) (pieces : List (List α)) (s : σ) :
    B.chunk (B.lay size need pieces s).1 = (B.old (B.lay size need pieces s).2).length := by
  rw [lay, B.chunk_split, B.old_split]

/-- A piece can be read once it is laid down. -/
theorem kept_lay_self (B : Buffers α σ ν) (size need : ℕ) (pieces : List (List α)) (s : σ) :
    B.Kept (B.lay size need pieces s).2 (B.lay size need pieces s).1 := B.kept_split_self _

theorem viewLen_lay_self (h : B.written s = []) :
    B.viewLen (B.lay size need pieces s).1 = pieces.flatten.length := by
  rw [← B.length_read _ _ (B.kept_lay_self size need pieces s), read_lay_self h]

/-- A chunk is added exactly if the room left is too small. -/
theorem chunks_tail (B : Buffers α σ ν) (size need : ℕ) (s : σ) :
    B.chunks (B.tail size need s) =
      if (B.cur s).cap - (B.cur s).used < need
      then B.chunks s ++ [{ cap := B.granted (max need size) }] else B.chunks s := by
  rw [tail, chunks, ← B.room_eq]
  split_ifs
  · rw [B.old_withCapacity, B.cur_withCapacity]
    rfl
  · rfl

/-- At most one chunk is allocated. -/
theorem old_length_lay_le (hneed : pieces.flatten.length ≤ need) :
    (B.old (B.lay size need pieces s).2).length ≤ (B.old s).length + 1 := by
  rw [(cur_lay hneed).1, tail]
  split_ifs
  · rw [B.old_withCapacity, List.length_append]
    rfl
  · exact Nat.le_succ _

/-- No chunk is forgotten. -/
theorem old_length_le_lay (hneed : pieces.flatten.length ≤ need) :
    (B.old s).length ≤ (B.old (B.lay size need pieces s).2).length := by
  rw [(cur_lay hneed).1, tail]
  split_ifs
  · rw [B.old_withCapacity, List.length_append]
    exact Nat.le_add_right _ _
  · exact le_rfl

end Buffers

/-! ## How much the chunks hold -/

/-- The chunks as they are when every piece had room asked for that exceeds it by at most `s`. -/
structure Dense (size s : ℕ) (l : List Chunk) : Prop where
  /-- A chunk is given up for a piece that did not fit any more. -/
  pairs : l.IsChain fun c c' => c.cap ≤ c.used + c'.used + s
  fair : ∀ c ∈ l, c.cap ≤ size + c.used + s

/-- The capacity of chunk `i`. -/
def capAt (l : List Chunk) (i : ℕ) : ℕ := (l[i]?.map Chunk.cap).getD 0

theorem Dense.tail {size s : ℕ} {c : Chunk} {l : List Chunk} (h : Dense size s (c :: l)) :
    Dense size s l where
  pairs := h.pairs.tail
  fair c' hc' := h.fair c' (List.mem_cons_of_mem _ hc')

/-- Half of what the chunks could hold, up to a chunk. -/
theorem Dense.sum_cap_le {size s : ℕ} {c : Chunk} {l : List Chunk} (h : Dense size s (c :: l)) :
    ((c :: l).map Chunk.cap).sum + c.used ≤
      2 * ((c :: l).map Chunk.used).sum + s * (c :: l).length + size := by
  -- on the chunks; the head is counted once more so that the next one pays for it
  induction l generalizing c with
  | nil =>
      have hfair := h.fair c List.mem_cons_self
      simp only [List.map_cons, List.map_nil, List.sum_cons, List.sum_nil, List.length_cons,
        List.length_nil]
      omega
  | cons c' l ih =>
      have hpair : c.cap ≤ c.used + c'.used + s := (List.isChain_cons_cons.mp h.pairs).1
      have hrest := ih h.tail
      simp only [List.map_cons, List.sum_cons, List.length_cons] at hrest ⊢
      rw [Nat.mul_succ s (l.length + 1)]
      omega

/-- **The chunks from one on**: that one, and twice what the ones behind it hold. -/
theorem Dense.sum_cap_drop_le {size s : ℕ} {l : List Chunk} (h : Dense size s l) (i : ℕ) :
    ((l.drop i).map Chunk.cap).sum ≤
      2 * ((l.drop (i + 1)).map Chunk.used).sum + s * (l.drop (i + 1)).length + size +
        capAt l i := by
  induction l generalizing i with
  | nil => simp
  | cons c l ih =>
      cases i with
      | succ i => exact ih h.tail i
      | zero =>
          have hcap : capAt (c :: l) 0 = c.cap := rfl
          rw [hcap, List.drop_zero, List.drop_one, List.tail_cons, List.map_cons, List.sum_cons]
          cases l with
          | nil => simp
          | cons c' l =>
              have hsum := h.tail.sum_cap_le
              omega

/-- A part of a list that starts at `i` or later. -/
theorem sum_filter_zipIdx_le {β : Type*} (f : β → ℕ) (p : β × ℕ → Bool) {i : ℕ}
    (hp : ∀ b j, p (b, j) = true → i ≤ j) (l : List β) (k : ℕ) :
    (((l.zipIdx k).filter p).map fun q => f q.1).sum ≤ ((l.drop (i - k)).map f).sum := by
  induction l generalizing k with
  | nil => simp
  | cons b l ih =>
      have hrest := ih (k + 1)
      rw [List.zipIdx_cons]
      cases hb : p (b, k) with
      | true =>
          have hik := hp b k hb
          rw [List.filter_cons_of_pos hb, List.map_cons, List.sum_cons,
            show i - k = 0 by omega, List.drop_zero, List.map_cons, List.sum_cons]
          rw [show i - (k + 1) = 0 by omega, List.drop_zero] at hrest
          exact Nat.add_le_add_left hrest (f b)
      | false =>
          rw [List.filter_cons_of_neg (by simp [hb])]
          rcases Nat.eq_zero_or_pos (i - k) with hzero | hpos
          · rw [hzero, List.drop_zero, List.map_cons, List.sum_cons]
            rw [show i - (k + 1) = 0 by omega, List.drop_zero] at hrest
            omega
          · rwa [show i - k = i - (k + 1) + 1 by omega, List.drop_succ_cons]

section Lay

variable {α σ ν : Type*} {B : Buffers α σ ν} {st : σ} {size need s : ℕ}
  {pieces : List (List α)}

/-- The chunk without room is dense. -/
theorem dense_new (B : Buffers α σ ν) (size s : ℕ) : Dense size s (B.chunks B.new) where
  pairs := by
    rw [Buffers.chunks, B.old_new]
    exact List.isChain_singleton _
  fair := by simp [Buffers.chunks, B.old_new, B.cur_new]

/-- The last chunk may be filled up. -/
theorem Dense.fill {l : List Chunk} {c : Chunk} (h : Dense size s (l ++ [c])) (n : ℕ) :
    Dense size s (l ++ [{ c with used := c.used + n }]) := by
  obtain ⟨hinit, -, hlast⟩ := List.isChain_append.mp h.pairs
  refine ⟨List.isChain_append.mpr ⟨hinit, List.isChain_singleton _, fun c₀ hc₀ c' hc' => ?_⟩,
    fun c' hc' => ?_⟩
  · have hpair := hlast c₀ hc₀ c rfl
    obtain rfl := Option.some.inj hc'
    simp only
    omega
  · rcases List.mem_append.mp hc' with hc' | hc'
    · exact h.fair c' (List.mem_append_left _ hc')
    · have hfair := h.fair c (List.mem_append_right _ (List.mem_singleton_self _))
      rw [List.mem_singleton.mp hc']
      simp only
      omega

/-- A fresh chunk, and what the last one did not have room for is written to it. -/
theorem Dense.snoc {l : List Chunk} {c : Chunk} (h : Dense size s (l ++ [c])) {cap n : ℕ}
    (hroom : c.cap ≤ c.used + n + s) (hcap : cap ≤ size + n + s) :
    Dense size s (l ++ [c] ++ [{ cap, used := n }]) := by
  refine ⟨List.isChain_append.mpr ⟨h.pairs, List.isChain_singleton _, fun c₀ hc₀ c' hc' => ?_⟩,
    fun c' hc' => ?_⟩
  · obtain rfl : c = c₀ := by simpa using hc₀
    obtain rfl := Option.some.inj hc'
    exact hroom
  · rcases List.mem_append.mp hc' with hc' | hc'
    · exact h.fair c' hc'
    · rw [List.mem_singleton.mp hc']
      exact hcap

/-- **Dense chunks stay dense** if the room asked for exceeds the piece by at most `s`. -/
theorem Dense.lay (hd : Dense size s (B.chunks st)) (hexact : ∀ n, B.granted n ≤ n)
    (hneed : pieces.flatten.length ≤ need) (hs : need ≤ pieces.flatten.length + s) :
    Dense size s (B.chunks (B.lay size need pieces st).2) := by
  have hcur : B.chunks (B.lay size need pieces st).2 = B.old (B.tail size need st) ++
      [{ B.cur (B.tail size need st) with
        used := (B.cur (B.tail size need st)).used + pieces.flatten.length }] := by
    rw [Buffers.chunks, (Buffers.cur_lay hneed).1, (Buffers.cur_lay hneed).2]
  rw [hcur, Buffers.tail, B.room_eq]
  split_ifs with hroom
  · have hgrant := hexact (max need size)
    rw [B.old_withCapacity, B.cur_withCapacity]
    simp only [Nat.zero_add]
    exact hd.snoc (by omega) (by omega)
  · exact hd.fill _

/-- What is written to the chunks behind one. -/
theorem sum_used_lay (h : B.written st = []) (hneed : pieces.flatten.length ≤ need) (i : ℕ) :
    (((B.chunks (B.lay size need pieces st).2).drop (i + 1)).map Chunk.used).sum =
      (((B.chunks st).drop (i + 1)).map Chunk.used).sum +
        if i < B.chunk (B.lay size need pieces st).1
        then B.viewLen (B.lay size need pieces st).1 else 0 := by
  have htail : (((B.chunks (B.tail size need st)).drop (i + 1)).map Chunk.used).sum =
      (((B.chunks st).drop (i + 1)).map Chunk.used).sum := by
    rw [B.chunks_tail]
    split_ifs
    · rw [List.drop_append, List.map_append, List.sum_append, Nat.add_eq_left]
      refine List.sum_eq_zero fun x hx => ?_
      obtain ⟨c, hc, rfl⟩ := List.mem_map.mp hx
      rw [List.mem_singleton.mp (List.mem_of_mem_drop hc)]
    · rfl
  rw [← htail, B.chunk_lay_self, Buffers.viewLen_lay_self h, Buffers.chunks,
    (Buffers.cur_lay hneed).1, (Buffers.cur_lay hneed).2, Buffers.chunks]
  generalize B.tail size need st = t
  split_ifs with hi
  · rw [List.drop_append_of_le_length (by omega), List.drop_append_of_le_length (by omega)]
    simp only [List.map_append, List.sum_append, List.map_cons, List.map_nil, List.sum_cons,
      List.sum_nil]
    omega
  · have hnil : ∀ c : Chunk, (B.old t ++ [c]).drop (i + 1) = [] := fun c =>
      List.drop_eq_nil_of_le (by simp; omega)
    rw [hnil, hnil]
    rfl

end Lay

/-! ## An implementation -/

/-- Where a piece that was handed over lies. -/
structure View where
  chunk : ℕ
  off : ℕ
  len : ℕ
  deriving DecidableEq

/-- The chunks given up so far, with their capacities, and of the current one its capacity, what
has been handed over of it, and what is in the buffer. -/
structure Arena (α : Type*) where
  old : List (ℕ × List α) := []
  cap : ℕ := 0
  done : List α := []
  fresh : List α := []

namespace Arena

variable {α : Type*}

/-- What is written to chunk `i`. -/
def content (a : Arena α) (i : ℕ) : List α :=
  ((a.old.map Prod.snd ++ [a.done ++ a.fresh])[i]?).getD []

def read (a : Arena α) (v : View) : List α := ((a.content v.chunk).drop v.off).take v.len

/-- The view lies in what has been written. -/
def Kept (a : Arena α) (v : View) : Prop := v.off + v.len ≤ (a.content v.chunk).length

/-- What is written behind a view does not change it. -/
theorem kept_of_prefix {a a' : Arena α} {v : View} (hv : a.Kept v)
    (h : a.content v.chunk <+: a'.content v.chunk) : a'.Kept v ∧ a'.read v = a.read v := by
  have hlen : v.off + v.len ≤ (a.content v.chunk).length := hv
  refine ⟨hlen.trans h.length_le, ?_⟩
  obtain ⟨data, hdata⟩ := h
  rw [read, read, ← hdata, List.drop_append_of_le_length (by omega),
    List.take_append_of_le_length (by rw [List.length_drop]; omega)]

def withCapacity (a : Arena α) (n : ℕ) : Arena α where
  old := a.old ++ [(a.cap, a.done ++ a.fresh)]
  cap := n

def putSlice (a : Arena α) (xs : List α) : Arena α := { a with fresh := a.fresh ++ xs }

def split (a : Arena α) : View × Arena α :=
  (⟨a.old.length, a.done.length, a.fresh.length⟩,
    { a with done := a.done ++ a.fresh, fresh := [] })

/-- A fresh chunk leaves the others as they are. -/
theorem content_withCapacity (a : Arena α) (n i : ℕ) :
    a.content i <+: (a.withCapacity n).content i := by
  have hmore : (a.withCapacity n).content i =
      ((a.old.map Prod.snd ++ [a.done ++ a.fresh] ++ [[]])[i]?).getD [] := by
    simp [content, withCapacity]
  rw [hmore, content]
  generalize a.old.map Prod.snd ++ [a.done ++ a.fresh] = l
  rw [List.getElem?_append]
  split_ifs with hi
  · exact List.prefix_rfl
  · rw [List.getElem?_eq_none (not_lt.mp hi)]
    exact List.nil_prefix

/-- What is written goes behind what is there. -/
theorem content_putSlice (a : Arena α) (xs : List α) (i : ℕ) :
    a.content i <+: (a.putSlice xs).content i := by
  simp only [content, putSlice, List.getElem?_append]
  split_ifs with hi
  · exact List.prefix_rfl
  · cases i - (a.old.map Prod.snd).length with
    | zero => exact ⟨xs, by simp⟩
    | succ j => exact List.prefix_rfl

theorem content_split (a : Arena α) (i : ℕ) : a.split.2.content i = a.content i := by
  simp [content, split]

/-- The current chunk has what was handed over of it and what is in the buffer. -/
theorem content_last (a : Arena α) : a.content a.old.length = a.done ++ a.fresh := by
  simp [content]

/-- The buffers of an arena.  A chunk that more is written to than its capacity just grows. -/
def buffers : Buffers α (Arena α) View where
  new := {}
  withCapacity := withCapacity
  putSlice := putSlice
  split := split
  capacity a := a.cap - a.done.length
  len a := a.fresh.length
  read := read
  viewLen := View.len
  written := fresh
  old a := a.old.map fun p => ⟨p.1, p.2.length⟩
  cur a := ⟨a.cap, (a.done ++ a.fresh).length⟩
  chunk := View.chunk
  Kept := Kept
  granted := id
  le_granted _ := le_rfl
  room_eq a := by rw [List.length_append, Nat.sub_sub]
  written_new := rfl
  old_new := rfl
  cur_new := rfl
  written_withCapacity _ _ := rfl
  old_withCapacity a n := by simp [withCapacity]
  cur_withCapacity _ _ := rfl
  kept_withCapacity a n v hv := kept_of_prefix hv (a.content_withCapacity n v.chunk)
  written_putSlice _ _ := rfl
  old_putSlice _ _ _ := rfl
  cur_putSlice a xs _ := by simp [putSlice, Nat.add_assoc]
  kept_putSlice a xs v hv := kept_of_prefix hv (a.content_putSlice xs v.chunk)
  written_split _ := rfl
  old_split _ := rfl
  cur_split a := by simp [split]
  chunk_split a := by simp [split]
  kept_split_self a := by
    rw [Kept, content_split]
    simp only [split, content_last, List.length_append, le_refl]
  read_split_self a := by
    rw [read, content_split]
    simp only [split, content_last, List.drop_left, List.take_length]
  kept_split a v hv := kept_of_prefix hv (a.content_split v.chunk ▸ List.prefix_rfl)
  length_read a v hv := by
    have hlen : v.off + v.len ≤ (a.content v.chunk).length := hv
    rw [read, List.length_take, List.length_drop]
    omega

end Arena

end Bump
