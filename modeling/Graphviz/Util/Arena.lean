import Mathlib.Data.BitVec
import Mathlib.Data.List.Pairwise
import Graphviz.Util.Fault

/-!
# Arenas (`util/arena.c`)

An arena carves blocks off the end of a chunk and keeps its chunks until it is reset. Addresses and
sizes are 64 bits wide and wrap. `calloc` is a parameter: it fails, or finds a block that is clear
of the blocks that are there.
-/

namespace Graphviz

open List Nat Outcome

/-! ## The arena -/

/-- Some bytes of the memory, by the address of the first. -/
structure Block where
  addr : BitVec 64
  size : BitVec 64
  deriving DecidableEq

/-- `arena_t`. The chunks of `source` are listed from the current one, each before its `previous`,
with the sizes they were allocated with. -/
structure arena_t where
  source : List Block
  remaining : BitVec 64
  deriving DecidableEq

/-- `sizeof(arena_chunk_t)`. -/
def sizeofChunk : BitVec 64 := 8

/-- `DEFAULT_CHUNK`. -/
def DEFAULT_CHUNK : BitVec 64 := 16384 - sizeofChunk

/-- `is_power_of_2`. -/
def is_power_of_2 (value : BitVec 64) : Bool :=
  if value = 0 then false
  else if value &&& 1 ≠ 1 then is_power_of_2 (value >>> 1)
  else value = 1
termination_by value.toNat
decreasing_by
  have hne : value.toNat ≠ 0 := fun h => ‹¬value = 0› (BitVec.eq_of_toNat_eq h)
  rw [BitVec.toNat_ushiftRight, Nat.shiftRight_one]
  omega

/-- `gv_alloc`, with the answer of `calloc`. -/
def gv_alloc (calloc : BitVec 64 → Option (BitVec 64)) (size : BitVec 64) :
    Except Fault (Option (BitVec 64)) :=
  match calloc size with
  | some p => .ok (some p)
  | none => if size = 0 then .ok none else .error .exitFailure

/-- `more_core`. -/
def more_core (calloc : BitVec 64 → Option (BitVec 64)) (arena : arena_t)
    (req_alignment req_size : BitVec 64) : Except Fault arena_t := do
  assert (req_alignment ≠ 0)
  let chunk_size :=
    if DEFAULT_CHUNK < req_size + req_alignment - 1 then req_size + req_alignment - 1
    else DEFAULT_CHUNK
  match ← gv_alloc calloc (sizeofChunk + chunk_size) with
  | none => .error .segfault
  | some more =>
    .ok ⟨⟨more, sizeofChunk + chunk_size⟩ :: arena.source, chunk_size⟩

/-- `alloc`. -/
def alloc (arena : arena_t) (alignment size : BitVec 64) :
    Except Fault (Option (BitVec 64 × arena_t)) := do
  assert (alignment ≠ 0)
  assert (is_power_of_2 alignment)
  if arena.remaining < size then return none
  let base := (arena.source.head?.elim 0 Block.addr) + sizeofChunk
  let limit := base + arena.remaining
  let start := (limit - size) &&& ~~~(alignment - 1)
  if start < base then return none
  return some (start, { arena with remaining := arena.remaining - (limit - start) })

/-- `gv_arena_alloc`. -/
def gv_arena_alloc (calloc : BitVec 64 → Option (BitVec 64)) (arena : arena_t)
    (alignment size : BitVec 64) : Except Fault (Option (BitVec 64) × arena_t) := do
  if size = 0 then return (none, arena)
  match ← alloc arena alignment size with
  | some (ptr, arena) => return (some ptr, arena)
  | none =>
    let arena ← more_core calloc arena alignment size
    match ← alloc arena alignment size with
    | some (ptr, arena) => return (some ptr, arena)
    | none => return (none, arena)

/-- `gv_arena_reset`: the chunks that are freed, and the arena. -/
def gv_arena_reset (arena : arena_t) : List Block × arena_t := (arena.source, ⟨[], 0⟩)

/-! ## Runs -/

/-- Two blocks without a byte in common. -/
def Block.Clear (b c : Block) : Prop :=
  b.addr.toNat + b.size.toNat ≤ c.addr.toNat ∨ c.addr.toNat + c.size.toNat ≤ b.addr.toNat

/-- What `calloc` promises: the bytes it finds are in the memory, and clear of the chunks that are
there. -/
def CallocFor (arena : arena_t) (calloc : BitVec 64 → Option (BitVec 64)) : Prop :=
  ∀ size p, calloc size = some p →
    p.toNat + size.toNat ≤ 2 ^ 64 ∧ ∀ c ∈ arena.source, Block.Clear ⟨p, size⟩ c

/-- A request as the arena takes it: a power of two, and a size which does not overflow with it. -/
structure Request where
  alignment : BitVec 64
  size : BitVec 64
  power : is_power_of_2 alignment
  sum_lt : size.toNat + alignment.toNat < 2 ^ 64

/-- The first byte of the current chunk after its header. -/
def arena_t.base (arena : arena_t) : ℕ := (arena.source.head?.elim 0 Block.addr).toNat + 8

/-- The current chunk has room for an aligned block. -/
def arena_t.Room (arena : arena_t) (r : Request) : Prop :=
  ∃ q, r.alignment.toNat ∣ q ∧ arena.base ≤ q ∧
    q + r.size.toNat ≤ arena.base + arena.remaining.toNat

/-- The chunk that `more_core` would make for a request has a size. -/
def Request.Fits (r : Request) : Prop :=
  sizeofChunk.toNat + (r.size.toNat + r.alignment.toNat - 1) < 2 ^ 64

/-- An arena and the blocks it returned since its last reset. -/
structure ArenaRun where
  arena : arena_t
  blocks : List Block

/-- No chunk is made for the request, or the chunk has a size. -/
def ArenaRun.Takes (s : ArenaRun) (r : Request) : Prop :=
  r.size = 0 ∨ s.arena.Room r ∨ r.Fits

/-- The states that runs reach from the zero arena, each request of which is `Takes`. -/
inductive ArenaRun.Reachable : ArenaRun → Prop
  | start : Reachable ⟨⟨[], 0⟩, []⟩
  | alloc {s : ArenaRun} {calloc : BitVec 64 → Option (BitVec 64)} {r : Request}
      {ptr : Option (BitVec 64)} {arena : arena_t} (hs : s.Reachable)
      (hcalloc : CallocFor s.arena calloc) (hr : s.Takes r)
      (hrun : gv_arena_alloc calloc s.arena r.alignment r.size = .ok (ptr, arena)) :
      Reachable ⟨arena, s.blocks ++ (ptr.toList.map fun p => ⟨p, r.size⟩)⟩
  | reset {s : ArenaRun} (hs : s.Reachable) : Reachable ⟨(gv_arena_reset s.arena).2, []⟩

/-- The block of a request: aligned, within a chunk and after its header, and clear of the blocks
returned before. There is none only for a request of no bytes. -/
structure ArenaRun.Served (s : ArenaRun) (r : Request) (ptr : Option (BitVec 64))
    (arena : arena_t) : Prop where
  none_iff : ptr = none ↔ r.size = 0
  aligned : ∀ p ∈ ptr, r.alignment.toNat ∣ p.toNat
  within : ∀ p ∈ ptr, ∃ c ∈ arena.source, c.addr.toNat + sizeofChunk.toNat ≤ p.toNat ∧
    p.toNat + r.size.toNat ≤ c.addr.toNat + c.size.toNat
  clear : ∀ p ∈ ptr, ∀ b ∈ s.blocks, Block.Clear ⟨p, r.size⟩ b

/-! ## Rounding down -/

/-- A power of two is one. -/
theorem exists_pow_of_is_power_of_2 {value : BitVec 64} (h : is_power_of_2 value) :
    ∃ k, value.toNat = 2 ^ k := by
  induction value using is_power_of_2.induct with
  | case1 =>
    rw [is_power_of_2] at h
    cases h
  | case2 value hzero heven ih =>
    rw [is_power_of_2, if_neg hzero, if_pos heven] at h
    obtain ⟨k, hk⟩ := ih h
    have hmod : value.toNat % 2 ≠ 1 := fun hmod => heven (BitVec.eq_of_toNat_eq (by
      rw [BitVec.toNat_and]
      exact (and_one_is_mod _).trans hmod))
    rw [BitVec.toNat_ushiftRight, shiftRight_one] at hk
    exact ⟨k + 1, by rw [pow_succ]; omega⟩
  | case3 value hzero hodd =>
    rw [is_power_of_2, if_neg hzero, if_neg hodd] at h
    exact ⟨0, congrArg BitVec.toNat (of_decide_eq_true h)⟩

/-- The mask of a power of two rounds down to its multiples. -/
theorem toNat_and_mask {x alignment : BitVec 64} {k : ℕ} (ha : alignment.toNat = 2 ^ k) :
    (x &&& ~~~(alignment - 1)).toNat = x.toNat / 2 ^ k * 2 ^ k := by
  have hmask : (alignment - 1).toNat = 2 ^ k - 1 := by
    have hpos := Nat.two_pow_pos k
    have hlt := alignment.isLt
    rw [BitVec.toNat_sub]
    rw [show (1 : BitVec 64).toNat = 1 from rfl, ha]
    omega
  have heq : x &&& ~~~(alignment - 1) = (x >>> k) <<< k := by
    ext i hi
    have hbit : (alignment - 1)[i] = decide (i < k) := by
      rw [← BitVec.getLsbD_eq_getElem, BitVec.getLsbD, hmask, testBit_two_pow_sub_one]
    rw [BitVec.getElem_and, BitVec.getElem_not, hbit, BitVec.getElem_shiftLeft]
    obtain hik | hik := lt_or_ge i k
    · simp [hik]
    · rw [BitVec.getElem_ushiftRight, Nat.add_sub_cancel' hik, BitVec.getLsbD_eq_getElem hi,
        Bool.and_comm]
  rw [heq, BitVec.toNat_shiftLeft, BitVec.toNat_ushiftRight, shiftRight_eq_div_pow, shiftLeft_eq]
  exact mod_eq_of_lt ((div_mul_le_self _ _).trans_lt x.isLt)

/-! ## One request -/

variable {s : ArenaRun} {arena : arena_t} {r : Request}
  {calloc : BitVec 64 → Option (BitVec 64)}

/-- The free bytes of the current chunk are in the memory. -/
def arena_t.Bounded (arena : arena_t) : Prop :=
  arena.base < 2 ^ 64 ∧ arena.base + arena.remaining.toNat ≤ 2 ^ 64

/-- A block is found in the current chunk if there is room for it, and then the bytes below it are
free. -/
theorem alloc_spec (ha : arena.Bounded) (hsize : r.size ≠ 0) :
    Meets (alloc arena r.alignment r.size) (fun res =>
      match res with
      | none => ¬arena.Room r
      | some (p, arena') => r.alignment.toNat ∣ p.toNat ∧ arena.base ≤ p.toNat ∧
          p.toNat + r.size.toNat ≤ arena.base + arena.remaining.toNat ∧
          arena'.source = arena.source ∧
          arena.base + arena'.remaining.toNat = p.toNat)
      fun _ => False := by
  obtain ⟨k, hpow⟩ := exists_pow_of_is_power_of_2 r.power
  obtain ⟨hbase, hlimit⟩ := ha
  have hpos := Nat.two_pow_pos k
  have hal : r.alignment ≠ 0 := fun h => by rw [h] at hpow; exact hpos.ne hpow
  have hsize' : r.size.toNat ≠ 0 := fun h => hsize (BitVec.eq_of_toNat_eq h)
  rw [alloc]
  refine Meets.assert hal (Meets.assert r.power ?_)
  have hb : (arena.source.head?.elim 0 Block.addr + sizeofChunk).toNat = arena.base := by
    rw [arena_t.base] at hbase ⊢
    rw [BitVec.toNat_add]
    exact mod_eq_of_lt hbase
  split
  next hlt =>
    rintro ⟨q, -, hq, hle⟩
    have := BitVec.lt_def.1 hlt
    omega
  next hge =>
  have hge' : r.size.toNat ≤ arena.remaining.toNat := Nat.le_of_not_lt hge
  have hls : (arena.source.head?.elim 0 Block.addr + sizeofChunk + arena.remaining -
      r.size).toNat = arena.base + arena.remaining.toNat - r.size.toNat := by
    rw [BitVec.toNat_sub, BitVec.toNat_add, hb]
    omega
  have hstart := toNat_and_mask (x := arena.source.head?.elim 0 Block.addr + sizeofChunk +
    arena.remaining - r.size) hpow
  rw [hls] at hstart
  have hle := div_mul_le_self (arena.base + arena.remaining.toNat - r.size.toNat) (2 ^ k)
  dsimp only
  split
  next hlt =>
    rw [BitVec.lt_def, hstart, hb] at hlt
    rintro ⟨q, hdvd, hq, hqle⟩
    rw [hpow] at hdvd
    have hround : q / 2 ^ k * 2 ^ k ≤
        (arena.base + arena.remaining.toNat - r.size.toNat) / 2 ^ k * 2 ^ k :=
      Nat.mul_le_mul_right _ (Nat.div_le_div_right (by omega))
    rw [Nat.div_mul_cancel hdvd] at hround
    omega
  next hge2 =>
    rw [BitVec.not_lt, BitVec.le_def, hstart, hb] at hge2
    refine ⟨?_, ?_, ?_, rfl, ?_⟩
    · rw [hstart, hpow]
      exact dvd_mul_left _ _
    · rwa [hstart]
    · rw [hstart]
      omega
    · rw [BitVec.toNat_sub, BitVec.toNat_sub, hstart, BitVec.toNat_add, hb]
      omega

/-- A new chunk is clear of the chunks before it and has room for the request. -/
theorem more_core_spec (hcalloc : CallocFor arena calloc) (hfits : r.Fits) :
    Meets (more_core calloc arena r.alignment r.size) (fun arena' =>
      ∃ c, arena'.source = c :: arena.source ∧ (∀ d ∈ arena.source, c.Clear d) ∧
        c.addr.toNat + c.size.toNat ≤ 2 ^ 64 ∧
        c.size.toNat = 8 + arena'.remaining.toNat ∧ 0 < arena'.remaining.toNat ∧
        r.size.toNat + r.alignment.toNat ≤ arena'.remaining.toNat + 1)
      fun e => e = .exitFailure := by
  obtain ⟨k, hpow⟩ := exists_pow_of_is_power_of_2 r.power
  have hpos := Nat.two_pow_pos k
  have hsum := r.sum_lt
  have hal : r.alignment ≠ 0 := fun h => by rw [h] at hpow; exact hpos.ne hpow
  rw [Request.Fits, show sizeofChunk.toNat = 8 from rfl] at hfits
  have hchunk : (r.size + r.alignment - 1).toNat = r.size.toNat + r.alignment.toNat - 1 := by
    rw [BitVec.toNat_sub, BitVec.toNat_add, show (1 : BitVec 64).toNat = 1 from rfl]
    omega
  rw [more_core]
  refine Meets.assert hal ?_
  generalize hcs : (if DEFAULT_CHUNK < r.size + r.alignment - 1 then r.size + r.alignment - 1
    else DEFAULT_CHUNK) = cs
  have hcs_le : r.size.toNat + r.alignment.toNat ≤ cs.toNat + 1 ∧ 0 < cs.toNat ∧
      8 + cs.toNat < 2 ^ 64 := by
    have hdef : DEFAULT_CHUNK.toNat = 16376 := rfl
    split at hcs
    next hlt =>
      rw [BitVec.lt_def] at hlt
      subst hcs
      omega
    next hge =>
      rw [BitVec.not_lt, BitVec.le_def] at hge
      subst hcs
      omega
  obtain ⟨hle, hcpos, hclt⟩ := hcs_le
  have hsizeof : (sizeofChunk + cs).toNat = 8 + cs.toNat := by
    rw [BitVec.toNat_add, show sizeofChunk.toNat = 8 from rfl]
    exact mod_eq_of_lt hclt
  dsimp only
  rw [gv_alloc]
  cases hc : calloc (sizeofChunk + cs) with
  | none =>
    have hne : sizeofChunk + cs ≠ 0 := fun h => by
      rw [h, show (0 : BitVec 64).toNat = 0 from rfl] at hsizeof
      omega
    rw [if_neg hne]
    exact rfl
  | some p =>
    obtain ⟨hend, hclear⟩ := hcalloc _ p hc
    exact ⟨⟨p, sizeofChunk + cs⟩, rfl, hclear, hend, hsizeof, hcpos, hle⟩

/-- A chunk of the request's size and alignment has room for it wherever it starts. -/
theorem room_of_le (h : r.size.toNat + r.alignment.toNat ≤ arena.remaining.toNat + 1) :
    arena.Room r := by
  obtain ⟨k, hpow⟩ := exists_pow_of_is_power_of_2 r.power
  have hpos := Nat.two_pow_pos k
  have hmod := Nat.mod_lt (arena.base + 2 ^ k - 1) hpos
  have hdiv := Nat.div_add_mod' (arena.base + 2 ^ k - 1) (2 ^ k)
  refine ⟨(arena.base + 2 ^ k - 1) / 2 ^ k * 2 ^ k, ?_, ?_, ?_⟩
  · rw [hpow]
    exact dvd_mul_left _ _
  · omega
  · omega

/-! ## Runs of requests -/

/-- What a run keeps: the chunks are in the memory, the free bytes are in the current one, and the
blocks are in the chunks and clear of the free bytes. -/
structure ArenaRun.Inv (s : ArenaRun) : Prop where
  bounded : ∀ c ∈ s.arena.source, c.addr.toNat + c.size.toNat ≤ 2 ^ 64
  free : ∀ c ∈ s.arena.source.head?, 8 < c.size.toNat ∧ 8 + s.arena.remaining.toNat ≤ c.size.toNat
  empty : s.arena.source = [] → s.arena.remaining.toNat = 0
  within : ∀ b ∈ s.blocks, ∃ c ∈ s.arena.source, c.addr.toNat + 8 ≤ b.addr.toNat ∧
    b.addr.toNat + b.size.toNat ≤ c.addr.toNat + c.size.toNat
  clear : ∀ b ∈ s.blocks, b.addr.toNat + b.size.toNat ≤ s.arena.base ∨
    s.arena.base + s.arena.remaining.toNat ≤ b.addr.toNat

theorem ArenaRun.Inv.arena_bounded (h : s.Inv) : s.arena.Bounded := by
  rw [arena_t.Bounded, arena_t.base]
  cases hs : s.arena.source with
  | nil =>
    rw [h.empty hs]
    exact ⟨by decide, by decide⟩
  | cons c l =>
    have hc := h.bounded c (hs ▸ mem_cons_self)
    obtain ⟨hlt, hle⟩ := h.free c (hs ▸ rfl)
    dsimp only [head?_cons, Option.elim_some]
    omega

/-- The start of a run. -/
theorem ArenaRun.Inv.start : ArenaRun.Inv ⟨⟨[], 0⟩, []⟩ where
  bounded := by simp
  free := by simp
  empty _ := rfl
  within := by simp
  clear := by simp

/-- The bytes of the current chunk that are free. -/
theorem ArenaRun.Inv.exists_chunk (h : s.Inv) (hfree : s.arena.remaining.toNat ≠ 0) :
    ∃ c ∈ s.arena.source, s.arena.base = c.addr.toNat + 8 ∧
      s.arena.base + s.arena.remaining.toNat ≤ c.addr.toNat + c.size.toNat := by
  cases hs : s.arena.source with
  | nil => exact absurd (h.empty hs) hfree
  | cons c l =>
    obtain ⟨-, hle⟩ := h.free c (hs ▸ rfl)
    have hbase : s.arena.base = c.addr.toNat + 8 := by
      rw [arena_t.base, hs]
      rfl
    exact ⟨c, mem_cons_self, hbase, by omega⟩

/-- A block carved off the end of the free bytes. -/
theorem ArenaRun.Inv.carve (h : s.Inv) {p : BitVec 64} {arena' : arena_t} (hsize : r.size ≠ 0)
    (hbase : s.arena.base ≤ p.toNat)
    (hle : p.toNat + r.size.toNat ≤ s.arena.base + s.arena.remaining.toNat)
    (hsource : arena'.source = s.arena.source)
    (hfree : s.arena.base + arena'.remaining.toNat = p.toNat) :
    ArenaRun.Inv ⟨arena', s.blocks ++ [⟨p, r.size⟩]⟩ := by
  have hbase' : arena'.base = s.arena.base := by rw [arena_t.base, hsource, ← arena_t.base]
  have hsize' : r.size.toNat ≠ 0 := fun h => hsize (BitVec.eq_of_toNat_eq h)
  refine ⟨?_, ?_, ?_, ?_, ?_⟩ <;> simp only [hsource, hbase']
  · exact h.bounded
  · intro c hc
    obtain ⟨hlt, hle'⟩ := h.free c hc
    exact ⟨hlt, by omega⟩
  · intro hs
    have := h.empty hs
    omega
  · intro b hb
    obtain hb | hb := mem_append.1 hb
    · exact h.within b hb
    · rw [mem_singleton] at hb
      subst hb
      obtain ⟨c, hc, hcbase, hcle⟩ := h.exists_chunk (by omega)
      exact ⟨c, hc, by dsimp only; omega, by dsimp only; omega⟩
  · intro b hb
    obtain hb | hb := mem_append.1 hb
    · have := h.clear b hb
      omega
    · rw [mem_singleton] at hb
      subst hb
      exact .inr (by dsimp only; omega)

/-- The request is served by a block of the free bytes. -/
theorem ArenaRun.Inv.served (h : s.Inv) {p : BitVec 64} {arena' : arena_t} (hsize : r.size ≠ 0)
    (hdvd : r.alignment.toNat ∣ p.toNat) (hbase : s.arena.base ≤ p.toNat)
    (hle : p.toNat + r.size.toNat ≤ s.arena.base + s.arena.remaining.toNat)
    (hsource : arena'.source = s.arena.source) : s.Served r (some p) arena' := by
  have hsize' : r.size.toNat ≠ 0 := fun h => hsize (BitVec.eq_of_toNat_eq h)
  refine ⟨⟨nofun, fun h => absurd h hsize⟩, ?_, ?_, ?_⟩ <;> rintro q ⟨rfl⟩
  · exact hdvd
  · obtain ⟨c, hc, hcbase, hcle⟩ := h.exists_chunk (by omega)
    rw [hsource, show sizeofChunk.toNat = 8 from rfl]
    exact ⟨c, hc, by omega, by omega⟩
  · intro b hb
    have := h.clear b hb
    rw [Block.Clear]
    dsimp only
    omega

/-- A new chunk is clear of the blocks in the chunks before it. -/
theorem ArenaRun.Inv.more (h : s.Inv) {arena' : arena_t} {c : Block}
    (hsource : arena'.source = c :: s.arena.source) (hclear : ∀ d ∈ s.arena.source, c.Clear d)
    (hend : c.addr.toNat + c.size.toNat ≤ 2 ^ 64)
    (hsize : c.size.toNat = 8 + arena'.remaining.toNat) (hpos : 0 < arena'.remaining.toNat) :
    ArenaRun.Inv ⟨arena', s.blocks⟩ := by
  have hbase : arena'.base = c.addr.toNat + 8 := by
    rw [arena_t.base, hsource]
    rfl
  refine ⟨?_, ?_, ?_, ?_, ?_⟩ <;> simp only [hsource, hbase]
  · intro d hd
    obtain rfl | hd := mem_cons.1 hd
    · exact hend
    · exact h.bounded d hd
  · rintro d ⟨rfl⟩
    omega
  · intro hs
    cases hs
  · intro b hb
    obtain ⟨d, hd, hlo, hhi⟩ := h.within b hb
    exact ⟨d, mem_cons_of_mem _ hd, hlo, hhi⟩
  · intro b hb
    obtain ⟨d, hd, hlo, hhi⟩ := h.within b hb
    rcases hclear d hd with hcd | hcd <;> omega

/-- A request is served and the run goes on. -/
theorem ArenaRun.Inv.gv_arena_alloc (h : s.Inv) (hcalloc : CallocFor s.arena calloc)
    (hr : s.Takes r) :
    Meets (gv_arena_alloc calloc s.arena r.alignment r.size) (fun (ptr, arena') =>
      s.Served r ptr arena' ∧
        ArenaRun.Inv ⟨arena', s.blocks ++ (ptr.toList.map fun p => ⟨p, r.size⟩)⟩)
      fun e => e = .exitFailure := by
  rw [Graphviz.gv_arena_alloc]
  split
  next hzero =>
    refine ⟨⟨by simp [hzero], by simp, by simp, by simp⟩, ?_⟩
    rw [Option.toList_none, map_nil, append_nil]
    exact h
  next hsize =>
  refine Meets.bind ((alloc_spec h.arena_bounded hsize).mono (fun _ => id) (fun _ => False.elim)) ?_
  rintro (_ | ⟨p, arena'⟩) hres
  -- the current chunk has no room
  · have hfits : r.Fits := (hr.resolve_left hsize).resolve_left hres
    refine (more_core_spec hcalloc hfits).bind ?_
    rintro arena1 ⟨c, hsource, hclear, hend, hcsize, hpos, hroom⟩
    have h1 := h.more hsource hclear hend hcsize hpos
    refine Meets.bind ((alloc_spec h1.arena_bounded hsize).mono (fun _ => id)
      (fun _ => False.elim)) ?_
    rintro (_ | ⟨p, arena'⟩) hres
    · exact (hres (room_of_le hroom)).elim
    · obtain ⟨hdvd, hbase, hle, hsource', hfree⟩ := hres
      obtain ⟨hnone, haligned, hwithin, hclear'⟩ := h1.served hsize hdvd hbase hle hsource'
      exact ⟨⟨hnone, haligned, hwithin, hclear'⟩, h1.carve hsize hbase hle hsource' hfree⟩
  · obtain ⟨hdvd, hbase, hle, hsource, hfree⟩ := hres
    exact ⟨h.served hsize hdvd hbase hle hsource, h.carve hsize hbase hle hsource hfree⟩

theorem ArenaRun.Reachable.inv (h : s.Reachable) : s.Inv := by
  induction h with
  | start => exact .start
  | alloc _ hcalloc hr hrun ih => exact ((ih.gv_arena_alloc hcalloc hr).of_ok hrun).2
  | reset => exact .start

/-- In a run without a request whose chunk would have no size, each request is served. -/
theorem gv_arena_alloc_served (h : s.Reachable) (hcalloc : CallocFor s.arena calloc)
    (hr : s.Takes r) :
    Meets (gv_arena_alloc calloc s.arena r.alignment r.size)
      (fun (ptr, arena) => s.Served r ptr arena) fun e => e = .exitFailure :=
  (h.inv.gv_arena_alloc hcalloc hr).imp fun _ h => h.1

/-- Three pointers. -/
def pointersRequest : Request := ⟨8, 24, by simp [is_power_of_2], by decide⟩

/-- The first block of an arena is from its first chunk. -/
theorem gv_arena_alloc_served_first :
    Meets (gv_arena_alloc (fun size => if size = 16384 then some 4096 else none) ⟨[], 0⟩ 8 24)
      (fun (ptr, arena) => ArenaRun.Served ⟨⟨[], 0⟩, []⟩ pointersRequest ptr arena)
      fun e => e = .exitFailure :=
  gv_arena_alloc_served (r := pointersRequest) .start
    (by
      intro size p hp
      obtain ⟨rfl, hp⟩ := Option.ite_none_right_eq_some.1 hp
      cases hp
      exact ⟨by decide, by simp⟩)
    (.inr (.inr (by rw [Request.Fits]; decide)))

/-- The largest size but one. -/
def hugeRequest : Request := ⟨1, 18446744073709551614, by simp [is_power_of_2], by decide⟩

/-- The size of the chunk wraps, and the block of the request is not in the 6 bytes that are
found. -/
theorem gv_arena_alloc_huge :
    CallocFor ⟨[], 0⟩ (fun size => if size = 6 then some 4096 else none) ∧
    gv_arena_alloc (fun size => if size = 6 then some 4096 else none) ⟨[], 0⟩
      hugeRequest.alignment hugeRequest.size = .ok (some 4104, ⟨[⟨4096, 6⟩], 0⟩) ∧
    ¬ArenaRun.Served ⟨⟨[], 0⟩, []⟩ hugeRequest (some 4104) ⟨[⟨4096, 6⟩], 0⟩ := by
  refine ⟨?_, ?_, ?_⟩
  · intro size p hp
    obtain ⟨rfl, hp⟩ := Option.ite_none_right_eq_some.1 hp
    cases hp
    exact ⟨by decide, by simp⟩
  · have hone : is_power_of_2 1 = true := hugeRequest.power
    simp only [gv_arena_alloc, alloc, hugeRequest, hone]
    rfl
  · intro h
    obtain ⟨c, hc, hlo, hhi⟩ := h.within _ rfl
    cases mem_singleton.1 hc
    revert hhi
    decide

end Graphviz
