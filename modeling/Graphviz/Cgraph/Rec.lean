import Graphviz.Library.Links
import Graphviz.Util.Libc
import Graphviz.Util.Fault

/-!
# Records

The records of an object, `lib/cgraph/rec.c`: a circular list that the object's data pointer leads
into, and that the two halves of an edge have in common. Addresses are numbers, in the order of the
allocations; what a record has beside its name and its link is left out, as are allocations that
fail, the reference counts of names, and the message of a move to the front that a lock prevents.
-/

namespace Graphviz.Record

open Function Links List Outcome

/-- The types of objects, with the halves of edges. -/
inductive Objtype where
  | AGRAPH
  | AGNODE
  | AGOUTEDGE
  | AGINEDGE
  deriving DecidableEq

/-- `agopp` of a half of an edge. Other objects have no opposite. -/
def agopp : Objtype → Objtype
  | .AGOUTEDGE => .AGINEDGE
  | .AGINEDGE => .AGOUTEDGE
  | t => t

/-- `Agobj_t`: the data pointer, and the lock bit of the tag. -/
structure Agobj where
  data : Option ℕ
  mtflock : Bool
  deriving DecidableEq

/-- `Agrec_t`. -/
structure Agrec where
  name : CStr
  next : Option ℕ

/-- The memory that the records of an object are in, and the object, or both halves of it. -/
structure State where
  heap : ℕ → Option Agrec
  allocs : ℕ
  objs : Objtype → Agobj

/-- An object without records. -/
def State.init : State where
  heap _ := none
  allocs := 0
  objs _ := ⟨none, false⟩

namespace State

/-- A record that is read. -/
def read (s : State) (a : ℕ) : Except Fault Agrec :=
  match s.heap a with
  | some r => .ok r
  | none => .error .segfault

/-- A link that is written. -/
def setNext (s : State) (a : ℕ) (next : Option ℕ) : Except Fault State := do
  let r ← s.read a
  .ok { s with heap := Function.update s.heap a (some { r with next }) }

/-- `set_data`. -/
def setData (s : State) (obj : Objtype) (data : Option ℕ) (mtflock : Bool) : State :=
  { s with
    objs := Function.update (Function.update s.objs obj ⟨data, mtflock⟩) (agopp obj)
      ⟨data, mtflock⟩ }

/-- The loop of `aggetrec`. -/
def findRec (s : State) (name : CStr) (first : Option ℕ) : ℕ → Option ℕ → Except Fault (Option ℕ)
  | _, none => .ok none
  | 0, some _ => .error .fuel
  | fuel + 1, some d => do
    let r ← s.read d
    if name = r.name then .ok (some d)
    else if r.next = first then .ok none
    else s.findRec name first fuel r.next

/-- `aggetrec`. -/
def aggetrec (s : State) (obj : Objtype) (name : CStr) (mtf : Bool) :
    Except Fault (Option ℕ × State) := do
  let hdr := s.objs obj
  let first := hdr.data
  match ← s.findRec name first s.allocs first with
  | none => .ok (none, s)
  | some d =>
    if hdr.mtflock then .ok (some d, s)
    else if some d ≠ first ∨ mtf then .ok (some d, s.setData obj (some d) mtf)
    else .ok (some d, s)

/-- `objputrec`. -/
def objputrec (s : State) (obj : Objtype) (newrec : ℕ) : Except Fault State := do
  let s ←
    match (s.objs obj).data with
    | none => s.setNext newrec (some newrec)
    | some firstrec => do
      let r ← s.read firstrec
      if r.next = some firstrec then do
        let s ← s.setNext firstrec (some newrec)
        s.setNext newrec (some firstrec)
      else do
        let s ← s.setNext newrec r.next
        s.setNext firstrec (some newrec)
  if (s.objs obj).mtflock then .ok s else .ok (s.setData obj (some newrec) false)

/-- A new record with a name, in memory that is zero elsewhere. -/
def alloc (s : State) (name : CStr) : ℕ × State :=
  (s.allocs, { s with
    heap := Function.update s.heap s.allocs (some ⟨name, none⟩), allocs := s.allocs + 1 })

/-- `agbindrec`. -/
def agbindrec (s : State) (obj : Objtype) (recname : CStr) (recsize : ℕ) (move_to_front : Bool) :
    Except Fault (Option ℕ × State) := do
  let (rec, s) ← s.aggetrec obj recname false
  let (rec, s) ←
    if rec = none ∧ recsize > 0 then do
      let (newrec, s) := s.alloc recname
      let s ← s.objputrec obj newrec
      .ok (some newrec, s)
    else .ok (rec, s)
  if move_to_front then do
    let (_, s) ← s.aggetrec obj recname true
    .ok (rec, s)
  else .ok (rec, s)

/-- `objdelrec`. -/
def objdelrec (s : State) (obj : Objtype) (rec : ℕ) : Except Fault State :=
  if (s.objs obj).data = some rec then do
    let r ← s.read rec
    .ok (s.setData obj (if r.next = some rec then none else r.next) false)
  else .ok s

/-- The loop of `listdelrec`: the record before one. -/
def findPrev (s : State) (data : Option ℕ) (rec : ℕ) : ℕ → ℕ → Except Fault ℕ
  | 0, _ => .error .fuel
  | fuel + 1, prev => do
    let r ← s.read prev
    if r.next = some rec then .ok prev
    else do
      Graphviz.assert (r.next ≠ data)
      match r.next with
      | some prev => s.findPrev data rec fuel prev
      | none => .error .segfault

/-- `listdelrec`. -/
def listdelrec (s : State) (obj : Objtype) (rec : ℕ) : Except Fault State :=
  match (s.objs obj).data with
  | some prev => do
    let prev ← s.findPrev (some prev) rec s.allocs prev
    let r ← s.read rec
    s.setNext prev r.next
  | none => .error .segfault

/-- `agapply` of `objdelrec` from the root, for an object that is in some subgraphs, too. Its
images there are the object itself. -/
def applyDelrec (s : State) (obj : Objtype) (rec : ℕ) : ℕ → Except Fault State
  | 0 => s.objdelrec obj rec
  | subgraphs + 1 => do
    let s ← s.objdelrec obj rec
    s.applyDelrec obj rec subgraphs

/-- `free`. -/
def free (s : State) (a : ℕ) : State := { s with heap := Function.update s.heap a none }

/-- `agdelrec`, for an object that is in some number of subgraphs. -/
def agdelrec (s : State) (obj : Objtype) (name : CStr) (subgraphs : ℕ) :
    Except Fault (Status × State) := do
  match ← s.aggetrec obj name false with
  | (none, s) => .ok (.FAILURE, s)
  | (some rec, s) => do
    let s ← s.listdelrec obj rec
    let s ← if obj = .AGRAPH then s.objdelrec obj rec else s.applyDelrec obj rec subgraphs
    .ok (.SUCCESS, s.free rec)

end State

/-! ## Runs -/

/-- A call. -/
inductive RecOp where
  | agbindrec (obj : Objtype) (recname : CStr) (recsize : ℕ) (move_to_front : Bool)
  | aggetrec (obj : Objtype) (name : CStr) (mtf : Bool)
  | agdelrec (obj : Objtype) (name : CStr) (subgraphs : ℕ)

/-- The object of a call. -/
def RecOp.obj : RecOp → Objtype
  | .agbindrec obj _ _ _ => obj
  | .aggetrec obj _ _ => obj
  | .agdelrec obj _ _ => obj

/-- A call, by the functions. -/
def RecOp.step (s : State) : RecOp → Except Fault State
  | .agbindrec obj recname recsize move_to_front =>
    Prod.snd <$> s.agbindrec obj recname recsize move_to_front
  | .aggetrec obj name mtf => Prod.snd <$> s.aggetrec obj name mtf
  | .agdelrec obj name subgraphs => Prod.snd <$> s.agdelrec obj name subgraphs

/-- What a call does to the names that are bound. A record without size is not made. -/
def RecOp.apply (bound : List CStr) : RecOp → List CStr
  | .agbindrec _ recname recsize _ =>
    if recname ∈ bound ∨ recsize = 0 then bound else recname :: bound
  | .aggetrec _ _ _ => bound
  | .agdelrec _ name _ => bound.erase name

/-! ## The list -/

/-- The link of a record. -/
def State.next (s : State) (a : ℕ) : Option ℕ := (s.heap a).bind Agrec.next

/-- The name of a record. -/
def State.name (s : State) (a : ℕ) : CStr := ((s.heap a).map Agrec.name).getD []

/-- The records of an object: one circular list, from the data pointer on, with each bound name
once. The other half of an edge has the same data pointer and lock bit. -/
structure Records (s : State) (t : Objtype) (bound : List CStr) (ring : List ℕ) : Prop where
  circular : Circular ring s.next
  live : ∀ a ∈ ring, ∃ r, s.heap a = some r
  lt : ∀ a ∈ ring, a < s.allocs
  nodup : ring.Nodup
  names : (ring.map s.name).Perm bound
  once : bound.Nodup
  data : (s.objs t).data = ring.head?
  halves : s.objs (agopp t) = s.objs t
  lock : (s.objs t).mtflock = true → ring ≠ []

variable {s s' : State} {t : Objtype} {bound : List CStr} {ring A B C : List ℕ} {d a v : ℕ}
  {name : CStr} {r : Agrec}

@[simp] theorem agopp_agopp : agopp (agopp t) = t := by cases t <;> rfl

namespace State

theorem read_ok (h : s.heap a = some r) : s.read a = .ok r := by rw [read, h]

@[simp] theorem setData_allocs {data : Option ℕ} {lock : Bool} :
    (s.setData t data lock).allocs = s.allocs := rfl

@[simp] theorem setData_name {data : Option ℕ} {lock : Bool} :
    (s.setData t data lock).name = s.name := rfl

@[simp] theorem setData_objs {data : Option ℕ} {lock : Bool} :
    (s.setData t data lock).objs t = ⟨data, lock⟩ := by
  by_cases ht : agopp t = t
  · simp [setData, ht]
  · simp [setData, update_of_ne (Ne.symm ht)]

@[simp] theorem setData_objs_agopp {data : Option ℕ} {lock : Bool} :
    (s.setData t data lock).objs (agopp t) = ⟨data, lock⟩ := Function.update_self ..

/-- Data that is written again. -/
theorem setData_eq_self {data : Option ℕ} {lock : Bool} (h : s.objs t = ⟨data, lock⟩)
    (hopp : s.objs (agopp t) = s.objs t) : s.setData t data lock = s := by
  rw [setData, ← h, update_eq_self, ← hopp, update_eq_self]

/-- A link that is written: the other links, and the names, are as before. -/
structure Relinked (s : State) (a : ℕ) (next : Option ℕ) (s' : State) : Prop where
  next : s'.next = Function.update s.next a next
  name : s'.name = s.name
  live : ∀ b, (∃ r, s'.heap b = some r) ↔ ∃ r, s.heap b = some r
  allocs : s'.allocs = s.allocs
  objs : s'.objs = s.objs

theorem setNext_spec (next : Option ℕ) (h : s.heap a = some r) :
    ∃ s', s.setNext a next = .ok s' ∧ Relinked s a next s' := by
  refine ⟨{ s with heap := Function.update s.heap a (some { r with next }) }, ?_, ?_, ?_, ?_, rfl,
    rfl⟩
  · rw [setNext, read_ok h]; rfl
  · funext b
    by_cases hb : b = a
    · subst hb; simp [State.next]
    · simp [State.next, hb]
  · funext b
    by_cases hb : b = a
    · subst hb; simp [State.name, h]
    · simp [State.name, hb]
  · intro b
    by_cases hb : b = a
    · subst hb; simp [h]
    · simp [hb]

end State

namespace Records

theorem opp (h : Records s t bound ring) : Records s (agopp t) bound ring where
  circular := h.circular
  live := h.live
  lt := h.lt
  nodup := h.nodup
  names := h.names
  once := h.once
  data := by rw [h.halves, h.data]
  halves := by rw [agopp_agopp, h.halves]
  lock := by rw [h.halves]; exact h.lock

theorem init : Records State.init t [] [] where
  circular := fun A v B h => by simp at h
  live := by simp
  lt := by simp
  nodup := nodup_nil
  names := by simp
  once := nodup_nil
  data := rfl
  halves := rfl
  lock := by simp [State.init]

/-- The data pointer may lead to any of the records. -/
theorem setData {lock : Bool} (h : Records s t bound (A ++ d :: B)) :
    Records (s.setData t (some d) lock) t bound (d :: B ++ A) where
  circular := h.circular.rotate
  live := fun a ha => h.live a (by simp at ha ⊢; tauto)
  lt := fun a ha => h.lt a (by simp at ha ⊢; tauto)
  nodup := nodup_append_comm.1 h.nodup
  names := (perm_append_comm.map _).trans h.names
  once := h.once
  data := by simp
  halves := by simp
  lock := by simp

/-- There are no more records than allocations. -/
theorem length_le (h : Records s t bound ring) : ring.length ≤ s.allocs := by
  have hsub : ring ⊆ List.range s.allocs := fun a ha => mem_range.2 (h.lt a ha)
  have hle := (h.nodup.subperm hsub).length_le
  rwa [length_range] at hle

theorem name_mem (h : Records s t bound ring) : name ∈ bound ↔ ∃ a ∈ ring, s.name a = name := by
  rw [← h.names.mem_iff, mem_map]

/-- Two records have different names. -/
theorem name_inj (h : Records s t bound ring) (ha : a ∈ ring) (hd : d ∈ ring)
    (hname : s.name a = s.name d) : a = d :=
  inj_on_of_nodup_map (h.names.nodup_iff.2 h.once) ha hd hname

end Records

/-! ## `aggetrec` -/

namespace State

/-- The walk from a record on, when those before have other names. -/
theorem findRec_eq (name : CStr) (hc : Circular (A ++ B) s.next)
    (hlive : ∀ a ∈ B, ∃ r, s.heap a = some r)
    (hn : (A ++ B).Nodup) {fuel : ℕ} (hfuel : B.length ≤ fuel) :
    s.findRec name (A ++ B).head? fuel B.head? = .ok (B.find? fun a => s.name a = name) := by
  induction B generalizing A fuel with
  | nil => cases fuel <;> rfl
  | cons d B ih =>
    cases fuel with
    | zero => simp at hfuel
    | succ fuel =>
      obtain ⟨r, hr⟩ := hlive d (by simp)
      have hname : s.name d = r.name := by rw [State.name, hr]; rfl
      have hnext : r.next = (B ++ (A ++ [d])).head? := by
        rw [← hc A d B rfl, State.next, hr]; rfl
      have hsplit : A ++ d :: B = (A ++ [d]) ++ B := by simp
      rw [head?_cons, findRec, read_ok hr, ok_bind, find?_cons, hname]
      by_cases heq : name = r.name
      · simp [heq]
      · rw [if_neg heq, decide_eq_false (Ne.symm heq)]
        cases B with
        | nil =>
          rw [if_pos (by rw [hnext]; rfl)]
          rfl
        | cons b B =>
          have hne : (A ++ d :: b :: B).head? ≠ some b := fun hb => by
            have hmem : b ∈ A ++ [d] := by
              cases A with
              | nil => simpa [eq_comm] using hb
              | cons a A => simp at hb; simp [hb]
            rw [hsplit] at hn
            exact (nodup_append.1 hn).2.2 b hmem b (by simp) rfl
          have hb : r.next = (b :: B).head? := hnext
          rw [if_neg (by rw [hb]; exact fun h => hne h.symm), hb]
          rw [hsplit] at hc hn ⊢
          exact ih hc (fun a ha => hlive a (mem_cons_of_mem d ha)) hn (by simpa using hfuel)

end State

/-- A record that is locked at the front stays there. -/
def Keeps (s s' : State) (t : Objtype) : Prop :=
  ∀ a, s.objs t = ⟨some a, true⟩ → s'.objs t = ⟨some a, true⟩ ∧ s'.name a = s.name a

theorem Keeps.refl (s : State) (t : Objtype) : Keeps s s t := fun _ ha => ⟨ha, rfl⟩

theorem Keeps.trans {s₁ s₂ : State} (h : Keeps s s₁ t) (h' : Keeps s₁ s₂ t) : Keeps s s₂ t := by
  intro a ha
  obtain ⟨ha1, hname1⟩ := h a ha
  obtain ⟨ha2, hname2⟩ := h' a ha1
  exact ⟨ha2, hname2.trans hname1⟩

namespace Records

theorem aggetrec_none (h : Records s t bound ring) (hname : name ∉ bound) (mtf : Bool) :
    s.aggetrec t name mtf = .ok (none, s) := by
  have hfind : ring.find? (fun a => s.name a = name) = none := by
    rw [find?_eq_none]
    intro a ha heq
    exact hname (h.name_mem.2 ⟨a, ha, by simpa using heq⟩)
  have hrun := State.findRec_eq (A := []) name h.circular h.live h.nodup h.length_le
  rw [nil_append, hfind] at hrun
  rw [State.aggetrec, h.data, hrun]
  rfl

theorem aggetrec_some (h : Records s t bound (A ++ d :: B)) (mtf : Bool) :
    s.aggetrec t (s.name d) mtf =
      .ok (some d, if (s.objs t).mtflock then s else s.setData t (some d) mtf) := by
  have hfind : (A ++ d :: B).find? (fun a => s.name a = s.name d) = some d := by
    rw [find?_eq_some_iff_append]
    refine ⟨by simp, A, B, rfl, fun a ha => ?_⟩
    have hne : a ≠ d := fun heq =>
      (nodup_append.1 h.nodup).2.2 a ha d (by simp) heq
    simpa using fun hname => hne (h.name_inj (by simp [ha]) (by simp) hname)
  have hrun : s.findRec (s.name d) (A ++ d :: B).head? s.allocs (A ++ d :: B).head? =
      .ok ((A ++ d :: B).find? fun a => s.name a = s.name d) :=
    State.findRec_eq (A := []) _ h.circular h.live h.nodup h.length_le
  rw [hfind] at hrun
  rw [State.aggetrec, h.data, hrun, ok_bind]
  cases hlock : (s.objs t).mtflock with
  | true => rfl
  | false =>
    dsimp only
    by_cases hmtf : some d ≠ (A ++ d :: B).head? ∨ mtf = true
    · rw [if_neg (by simp), if_pos hmtf, if_neg (by simp)]
    · rw [if_neg (by simp), if_neg hmtf, if_neg (by simp)]
      rw [not_or, not_not, Bool.not_eq_true] at hmtf
      have hobj : s.objs t = ⟨some d, mtf⟩ := by rw [hmtf.1, hmtf.2, ← h.data, ← hlock]
      rw [State.setData_eq_self hobj h.halves]

/-- What `aggetrec` does: it finds the record of a bound name, and moves it at most. -/
theorem aggetrec_spec (h : Records s t bound ring) (name : CStr) (mtf : Bool) :
    ∃ rec s' ring', s.aggetrec t name mtf = .ok (rec, s') ∧ Records s' t bound ring' ∧
      (rec.isSome ↔ name ∈ bound) ∧ (∀ a ∈ rec, a ∈ ring ∧ s.name a = name) ∧ Keeps s s' t := by
  by_cases hname : name ∈ bound
  · obtain ⟨d, hd, rfl⟩ := h.name_mem.1 hname
    obtain ⟨A, B, rfl⟩ := append_of_mem hd
    have hrun := h.aggetrec_some mtf
    cases hlock : (s.objs t).mtflock with
    | true =>
      rw [hlock, if_pos rfl] at hrun
      refine ⟨some d, s, _, hrun, h, by simpa using hname, ?_, Keeps.refl s t⟩
      rintro a ⟨⟩
      exact ⟨hd, rfl⟩
    | false =>
      rw [hlock, if_neg (by simp)] at hrun
      refine ⟨some d, _, _, hrun, h.setData, by simpa using hname, ?_, fun a ha => ?_⟩
      · rintro a ⟨⟩
        exact ⟨hd, rfl⟩
      rw [ha] at hlock
      cases hlock
  · exact ⟨none, s, ring, h.aggetrec_none hname mtf, h, by simpa using hname, by simp,
      Keeps.refl s t⟩

/-- The memory of other records does not matter. -/
theorem frame (h : Records s t bound ring) (hheap : ∀ a ∈ ring, s'.heap a = s.heap a)
    (hallocs : s.allocs ≤ s'.allocs) (hobjs : s'.objs = s.objs) : Records s' t bound ring where
  circular := h.circular.congr fun a ha => by rw [State.next, hheap a ha]; rfl
  live := fun a ha => by rw [hheap a ha]; exact h.live a ha
  lt := fun a ha => (h.lt a ha).trans_le hallocs
  nodup := h.nodup
  names := by
    have hmap : ring.map s'.name = ring.map s.name :=
      map_congr_left fun a ha => by rw [State.name, hheap a ha]; rfl
    rw [hmap]
    exact h.names
  once := h.once
  data := by rw [hobjs, h.data]
  halves := by rw [hobjs, h.halves]
  lock := by rw [hobjs]; exact h.lock

/-- The record that the data pointer leads to. -/
theorem data_mem (h : Records s t bound ring) {lock : Bool} (ha : s.objs t = ⟨some a, lock⟩) :
    a ∈ ring := by
  have hdata := h.data
  rw [ha] at hdata
  exact mem_of_head? hdata.symm

/-! ## `agbindrec` -/

/-- The two links that are written when a record is put after the first one, in either order. -/
theorem put_after (h : Records s t bound (v :: A)) (ha : ∃ r, s.heap a = some r)
    (hva : v ≠ a) (k : State → Except Fault State) : ∃ s', (do
      let r ← s.read v
      if r.next = some v then do
        let s ← s.setNext v (some a)
        let s ← s.setNext a (some v)
        k s
      else do
        let s ← s.setNext a r.next
        let s ← s.setNext v (some a)
        k s) = k s' ∧
      s'.next = Function.update (Function.update s.next a (s.next v)) v (some a) ∧
      s'.name = s.name ∧ (∀ b, (∃ r, s'.heap b = some r) ↔ ∃ r, s.heap b = some r) ∧
      s'.allocs = s.allocs ∧ s'.objs = s.objs := by
  obtain ⟨r, hr⟩ := h.live v (by simp)
  obtain ⟨ra, hra⟩ := ha
  have hnext : s.next v = r.next := by rw [State.next, hr]; rfl
  rw [State.read_ok hr, ok_bind]
  by_cases hone : r.next = some v
  · obtain ⟨s1, hs1, h1⟩ := State.setNext_spec (some a) hr
    obtain ⟨ra1, hra1⟩ := (h1.live a).2 ⟨ra, hra⟩
    obtain ⟨s2, hs2, h2⟩ := State.setNext_spec (some v) hra1
    refine ⟨s2, by rw [if_pos hone, hs1, ok_bind, hs2, ok_bind], ?_, h2.name.trans h1.name,
      fun b => (h2.live b).trans (h1.live b), h2.allocs.trans h1.allocs, h2.objs.trans h1.objs⟩
    rw [h2.next, h1.next, update_comm hva.symm, hnext, hone]
  · obtain ⟨s1, hs1, h1⟩ := State.setNext_spec r.next hra
    obtain ⟨rv1, hrv1⟩ := (h1.live v).2 ⟨r, hr⟩
    obtain ⟨s2, hs2, h2⟩ := State.setNext_spec (some a) hrv1
    refine ⟨s2, by rw [if_neg hone, hs1, ok_bind, hs2, ok_bind], ?_, h2.name.trans h1.name,
      fun b => (h2.live b).trans (h1.live b), h2.allocs.trans h1.allocs, h2.objs.trans h1.objs⟩
    rw [h2.next, h1.next, hnext]

/-- What `objputrec` does with a new record. -/
theorem objputrec_spec (h : Records s t bound ring) (hr : s.heap a = some ⟨name, none⟩)
    (ha : a ∉ ring) (hlt : a < s.allocs) (hname : name ∉ bound) :
    ∃ s' ring', s.objputrec t a = .ok s' ∧ Records s' t (name :: bound) ring' ∧ Keeps s s' t := by
  have hnamea : s.name a = name := by rw [State.name, hr]; rfl
  cases ring with
  | nil =>
    have hdata : (s.objs t).data = none := h.data
    have hlock : (s.objs t).mtflock = false := by
      by_contra hlock
      exact h.lock (by simpa using hlock) rfl
    obtain ⟨s', hs', hlink⟩ := State.setNext_spec (some a) hr
    have hnext : s'.next a = some a := by rw [hlink.next, update_self]
    have hring : Records (s'.setData t (some a) false) t (name :: bound) [a] :=
      { circular := Circular.singleton hnext
        live := fun b hb => by
          rw [mem_singleton.1 hb]
          exact (hlink.live a).2 ⟨_, hr⟩
        lt := fun b hb => by
          rw [mem_singleton.1 hb, State.setData_allocs, hlink.allocs]
          exact hlt
        nodup := nodup_singleton a
        names := by
          have hbound : bound = [] := nil_perm.1 h.names
          rw [hbound, State.setData_name, hlink.name, map_singleton, hnamea]
        once := nodup_cons.2 ⟨hname, h.once⟩
        data := by simp
        halves := by simp
        lock := by simp }
    refine ⟨_, [a], ?_, hring, fun b hb => ?_⟩
    · rw [State.objputrec, hdata]
      dsimp only
      rw [hs', ok_bind, hlink.objs, hlock]
      rfl
    · rw [hb] at hlock
      cases hlock
  | cons v A =>
    have hva : v ≠ a := fun hva => ha (hva ▸ by simp)
    obtain ⟨s', hs', hnext, hnames, hlive, hallocs, hobjs⟩ := h.put_after ⟨_, hr⟩ hva
      fun s => if (s.objs t).mtflock then .ok s else .ok (s.setData t (some a) false)
    have hother : ∀ b ∈ A, s'.next b = s.next b := fun b hb => by
      have hbv : b ≠ v := fun hbv => (nodup_cons.1 h.nodup).1 (hbv ▸ hb)
      have hba : b ≠ a := fun hba => ha (hba ▸ mem_cons_of_mem v hb)
      rw [hnext, update_of_ne hbv, update_of_ne hba]
    have hnexta : s'.next a = s.next v := by
      rw [hnext, update_of_ne hva.symm, update_self]
    have hring : Records s' t (name :: bound) (v :: a :: A) :=
      { circular := h.circular.insert hnexta (by rw [hnext, update_self]) hother
        live := fun b hb => (hlive b).2 <| by
          obtain rfl | hb := mem_cons.1 hb
          · exact h.live b (by simp)
          · obtain rfl | hb := mem_cons.1 hb
            · exact ⟨_, hr⟩
            · exact h.live b (by simp [hb])
        lt := fun b hb => by
          rw [hallocs]
          obtain rfl | hb := mem_cons.1 hb
          · exact h.lt b (by simp)
          · obtain rfl | hb := mem_cons.1 hb
            · exact hlt
            · exact h.lt b (by simp [hb])
        nodup := by
          obtain ⟨hv, hA⟩ := nodup_cons.1 h.nodup
          have haA : a ∉ A := fun haA => ha (mem_cons_of_mem v haA)
          exact nodup_cons.2 ⟨by simp [hva, hv], nodup_cons.2 ⟨haA, hA⟩⟩
        names := by
          rw [hnames, map_cons, map_cons, hnamea]
          exact (List.Perm.swap _ _ _).trans (h.names.cons name)
        once := nodup_cons.2 ⟨hname, h.once⟩
        data := by rw [hobjs, h.data]; rfl
        halves := by rw [hobjs, h.halves]
        lock := fun _ => by simp }
    have hrun : s.objputrec t a =
        if (s'.objs t).mtflock then .ok s' else .ok (s'.setData t (some a) false) := by
      rw [State.objputrec, h.data]
      exact hs'
    cases hlock : (s'.objs t).mtflock with
    | true =>
      rw [hlock, if_pos rfl] at hrun
      exact ⟨s', _, hrun, hring, fun b hb => ⟨by rw [hobjs, hb], by rw [hnames]⟩⟩
    | false =>
      rw [hlock, if_neg (by simp)] at hrun
      refine ⟨_, _, hrun, Records.setData (A := [v]) hring, fun b hb => ?_⟩
      rw [hobjs, hb] at hlock
      cases hlock

/-- A new record, which is in no list yet. -/
theorem alloc (h : Records s t bound ring) (name : CStr) :
    Records (s.alloc name).2 t bound ring := by
  refine h.frame (fun a ha => ?_) (Nat.le_succ _) rfl
  exact update_of_ne (h.lt a ha).ne _ _

/-- The end of `agbindrec`. -/
theorem moveToFront_spec (h : Records s t bound ring) (recname : CStr) (rec : Option ℕ)
    (move_to_front : Bool) :
    ∃ s' ring', (if move_to_front then do
        let (_, s) ← s.aggetrec t recname true
        .ok (rec, s)
      else .ok (rec, s)) = Except.ok (rec, s') ∧ Records s' t bound ring' ∧ Keeps s s' t := by
  cases move_to_front with
  | false => exact ⟨s, ring, rfl, h, Keeps.refl s t⟩
  | true =>
    obtain ⟨rec', s', ring', hs', h', -, -, hkeep⟩ := h.aggetrec_spec recname true
    exact ⟨s', ring', by rw [if_pos rfl, hs']; rfl, h', hkeep⟩

/-- What `agbindrec` does: a name is bound if it was not, when the record has a size. -/
theorem agbindrec_spec (h : Records s t bound ring) (recname : CStr) (recsize : ℕ)
    (move_to_front : Bool) :
    ∃ rec s' ring', s.agbindrec t recname recsize move_to_front = .ok (rec, s') ∧
      Records s' t (RecOp.apply bound (.agbindrec t recname recsize move_to_front)) ring' ∧
      Keeps s s' t := by
  obtain ⟨rec, s1, ring1, hs1, h1, hbound, -, hkeep1⟩ := h.aggetrec_spec recname false
  rw [State.agbindrec, hs1, ok_bind]
  by_cases hnew : rec = none ∧ recsize > 0
  · have hnot : recname ∉ bound := fun hmem => by
      have hsome := hbound.2 hmem
      rw [hnew.1] at hsome
      cases hsome
    have hfresh : s1.allocs ∉ ring1 := fun hmem => (h1.lt _ hmem).false
    have halloc : Keeps s1 (s1.alloc recname).2 t := fun a ha => by
      have hne : a ≠ s1.allocs := (h1.lt a (h1.data_mem ha)).ne
      exact ⟨ha, by simp [State.name, State.alloc, hne]⟩
    obtain ⟨s2, ring2, hs2, h2, hkeep2⟩ := (h1.alloc recname).objputrec_spec
      (a := s1.allocs) (update_self ..) hfresh (Nat.lt_succ_self _) hnot
    obtain ⟨s3, ring3, hs3, h3, hkeep3⟩ :=
      h2.moveToFront_spec recname (some s1.allocs) move_to_front
    refine ⟨some s1.allocs, s3, ring3, ?_, ?_, ((hkeep1.trans halloc).trans hkeep2).trans hkeep3⟩
    · dsimp only
      rw [if_pos hnew]
      change (do
        let s ← State.objputrec (s1.alloc recname).2 t s1.allocs
        if move_to_front then do
          let (_, s) ← s.aggetrec t recname true
          .ok (some s1.allocs, s)
        else .ok (some s1.allocs, s)) = Except.ok (some s1.allocs, s3)
      rw [hs2, ok_bind]
      exact hs3
    · rw [RecOp.apply, if_neg (by rw [not_or]; exact ⟨hnot, hnew.2.ne'⟩)]
      exact h3
  · have hold : recname ∈ bound ∨ recsize = 0 := by
      rw [not_and_or, Nat.not_lt, Nat.le_zero] at hnew
      exact hnew.imp_left fun hne => hbound.1 (Option.isSome_iff_ne_none.2 hne)
    obtain ⟨s2, ring2, hs2, h2, hkeep2⟩ := h1.moveToFront_spec recname rec move_to_front
    refine ⟨rec, s2, ring2, ?_, ?_, hkeep1.trans hkeep2⟩
    · dsimp only
      rw [if_neg hnew]
      exact hs2
    · rw [RecOp.apply, if_pos hold]
      exact h2

/-! ## `agdelrec` -/

/-- The walk to the record before `d`. -/
theorem findPrev_eq (data : Option ℕ) (hlive : ∀ a ∈ v :: C, ∃ r, s.heap a = some r)
    (hnext : ∀ A a B, v :: C = A ++ a :: B → s.next a = (B ++ [d]).head?) (hd : d ∉ C)
    (hdata : ∀ a ∈ C, data ≠ some a) {fuel : ℕ} (hfuel : C.length < fuel) :
    s.findPrev data d fuel v = .ok ((v :: C).getLast (List.cons_ne_nil v C)) := by
  induction C generalizing v fuel with
  | nil =>
    obtain ⟨r, hr⟩ := hlive v (by simp)
    have hv : r.next = some d := by
      have hvd := hnext [] v [] rfl
      rw [State.next, hr] at hvd
      exact hvd
    cases fuel with
    | zero => simp at hfuel
    | succ fuel => rw [State.findPrev, State.read_ok hr, ok_bind, if_pos hv]; rfl
  | cons c C ih =>
    obtain ⟨r, hr⟩ := hlive v (by simp)
    have hv : r.next = some c := by
      have hvc := hnext [] v (c :: C) rfl
      rw [State.next, hr] at hvc
      exact hvc
    have hcd : c ≠ d := fun hcd => hd (by simp [hcd])
    have hassert : some c ≠ data := (hdata c (by simp)).symm
    cases fuel with
    | zero => simp at hfuel
    | succ fuel =>
      rw [State.findPrev, State.read_ok hr, ok_bind, if_neg (by rw [hv]; simpa using hcd), hv,
        Graphviz.assert, if_pos hassert, ok_bind]
      dsimp only
      rw [ih (fun a ha => hlive a (mem_cons_of_mem v ha))
        (fun A a B heq => hnext (v :: A) a B (by rw [heq]; rfl))
        (fun hmem => hd (mem_cons_of_mem c hmem))
        (fun a ha => hdata a (mem_cons_of_mem c ha)) (by simpa using hfuel)]
      rw [getLast_cons_cons]

/-- `listdelrec` links the record before `d` to the one after it. -/
theorem listdelrec_spec (h : Records s t bound (A ++ d :: B)) :
    ∃ s', s.listdelrec t d = .ok s' ∧
      State.Relinked s ((d :: (B ++ A)).getLast (List.cons_ne_nil _ _)) (s.next d) s' := by
  obtain ⟨hA, hdB, hdisj⟩ := nodup_append.1 h.nodup
  have hdA : d ∉ A := fun hd => hdisj d hd d mem_cons_self rfl
  have hprev : ∃ v, (A ++ d :: B).head? = some v ∧ s.findPrev (some v) d s.allocs v =
      .ok ((d :: (B ++ A)).getLast (cons_ne_nil _ _)) := by
    have hlen := h.length_le
    rw [length_append, length_cons] at hlen
    cases A with
    | nil =>
      refine ⟨d, rfl, ?_⟩
      rw [findPrev_eq (C := B) (some d) h.live (fun A a B' heq => ?_) (nodup_cons.1 hdB).1
        (fun a ha heq => (nodup_cons.1 hdB).1 (by rwa [Option.some.inj heq]))
        (by rw [length_nil] at hlen; omega)]
      · simp
      · rw [h.circular A a B' heq]
        cases B' with
        | nil =>
          cases A with
          | nil => obtain ⟨rfl, -⟩ := cons.inj heq; rfl
          | cons a' A => obtain ⟨rfl, -⟩ := cons.inj heq; rfl
        | cons b B' => rfl
    | cons v A =>
      have hlast : (v :: A).getLast (cons_ne_nil v A) =
          (d :: (B ++ v :: A)).getLast (cons_ne_nil _ _) := by
        rw [getLast_cons (by simp : B ++ v :: A ≠ []),
          getLast_append_of_ne_nil _ (cons_ne_nil v A)]
      refine ⟨v, rfl, ?_⟩
      rw [← hlast]
      refine findPrev_eq (some v) (fun a ha => h.live a (by simp at ha ⊢; tauto))
        (fun A' a B' heq => ?_)
        (fun hd => hdA (mem_cons_of_mem v hd))
        (fun a ha heq => (nodup_cons.1 hA).1 (by rwa [Option.some.inj heq]))
        (by rw [length_cons] at hlen; omega)
      rw [h.circular A' a (B' ++ d :: B) (by rw [heq]; simp)]
      cases B' with
      | nil => rfl
      | cons b B' => rfl
  obtain ⟨v, hv, hprev⟩ := hprev
  have hmem : (d :: (B ++ A)).getLast (cons_ne_nil _ _) ∈ A ++ d :: B := by
    have hlast := getLast_mem (cons_ne_nil d (B ++ A))
    simp only [mem_cons, mem_append] at hlast ⊢
    tauto
  obtain ⟨rp, hrp⟩ := h.live _ hmem
  obtain ⟨rd, hrd⟩ := h.live d (by simp)
  have hnext : s.next d = rd.next := by rw [State.next, hrd]; rfl
  obtain ⟨s', hs', hlink⟩ := State.setNext_spec rd.next hrp
  refine ⟨s', ?_, by rw [hnext]; exact hlink⟩
  rw [State.listdelrec, h.data, hv]
  dsimp only
  rw [hprev, ok_bind, State.read_ok hrd, ok_bind, hs']

/-- The images of the object in the subgraphs do not lead to the record any more. -/
theorem applyDelrec_eq (hdata : (s'.objs t).data ≠ some d) (hs' : s.objdelrec t d = .ok s')
    (subgraphs : ℕ) : s.applyDelrec t d subgraphs = .ok s' := by
  have hidem : s'.objdelrec t d = .ok s' := by rw [State.objdelrec, if_neg hdata]
  induction subgraphs generalizing s with
  | zero => exact hs'
  | succ subgraphs ih =>
    rw [State.applyDelrec, hs', ok_bind]
    exact ih hidem

/-- The list without a record that `listdelrec` and `objdelrec` take out. -/
theorem delete_spec (h : Records s t bound (A ++ d :: B)) (subgraphs : ℕ) :
    ∃ s₁ s₂, s.listdelrec t d = .ok s₁ ∧ s₁.objdelrec t d = .ok s₂ ∧
      s₁.applyDelrec t d subgraphs = .ok s₂ ∧
      Records (s₂.free d) t (bound.erase (s.name d)) (A ++ B) ∧
      (∀ a, a ≠ d → s.objs t = ⟨some a, true⟩ →
        s₂.objs t = ⟨some a, true⟩ ∧ (s₂.free d).name a = s.name a) := by
  obtain ⟨hA, hdB, hdisj⟩ := nodup_append.1 h.nodup
  have hdA : d ∉ A := fun hd => hdisj d hd d mem_cons_self rfl
  have hdB' : d ∉ B := (nodup_cons.1 hdB).1
  have hrot : (d :: (B ++ A)).Nodup := nodup_append_comm.1 h.nodup
  have hcirc : Circular (d :: (B ++ A)) s.next := h.circular.rotate
  obtain ⟨s₁, hs1, hlink⟩ := h.listdelrec_spec
  obtain ⟨r, hr⟩ := (hlink.live d).2 (h.live d (by simp))
  -- The link of the record itself changes only when it is the only one.
  have hnextd : (if r.next = some d then none else r.next) = (B ++ A).head? := by
    have hr' : s₁.next d = r.next := by rw [State.next, hr]; rfl
    rw [← hr', hlink.next]
    have hd := hcirc [] d (B ++ A) rfl
    cases hBA : B ++ A with
    | nil =>
      rw [hBA] at hd
      simp [hd]
    | cons b L =>
      rw [hBA] at hd hrot
      have hbd : b ≠ d := fun hbd => (nodup_cons.1 hrot).1 (by simp [hbd])
      have hlast : d ≠ (d :: b :: L).getLast (cons_ne_nil _ _) := fun hlast =>
        (nodup_cons.1 hrot).1 <| by
          rw [getLast_cons (cons_ne_nil b L)] at hlast
          rw [hlast]
          exact getLast_mem _
      rw [update_of_ne hlast, hd]
      exact if_neg (by simpa using hbd)
  have hcirc1 : Circular (A ++ B) s₁.next := by
    refine Circular.rotate (hcirc.remove (fun u hu => ?_) (fun u hu hne => ?_)
      (nodup_cons.1 hrot).2)
    · have hu' : (d :: (B ++ A)).getLast? = some u := by
        rw [getLast?_cons, hu]
        rfl
      rw [getLast?_eq_some_getLast (cons_ne_nil _ _)] at hu'
      rw [hlink.next, Option.some.inj hu', update_self]
    · have hu' : u ≠ (d :: (B ++ A)).getLast (cons_ne_nil _ _) := fun heq => hne <| by
        rw [getLast_cons (ne_nil_of_mem hu)] at heq
        rw [heq, getLast?_eq_some_getLast (ne_nil_of_mem hu)]
      rw [hlink.next, update_of_ne hu']
  have hdel : ∃ s₂, s₁.objdelrec t d = .ok s₂ ∧ s₂.heap = s₁.heap ∧ s₂.allocs = s₁.allocs ∧
      (s₂.objs t).data = (A ++ B).head? ∧ s₂.objs (agopp t) = s₂.objs t ∧
      ((s₂.objs t).mtflock = true → s₂.objs t = s.objs t ∧ A ≠ []) ∧
      ((s.objs t).data ≠ some d → s₂.objs t = s.objs t) := by
    have hdata := h.data
    rw [← hlink.objs] at hdata
    cases A with
    | nil =>
      rw [nil_append, head?_cons] at hdata
      refine ⟨s₁.setData t (B ++ []).head? false, ?_, rfl, rfl, by simp, by simp, by simp,
        fun hne => absurd h.data hne⟩
      rw [State.objdelrec, if_pos hdata, State.read_ok hr, ok_bind, hnextd]
    | cons v A =>
      have hvd : v ≠ d := fun hvd => hdA (by simp [hvd])
      rw [cons_append, head?_cons] at hdata
      refine ⟨s₁, ?_, rfl, rfl, by rw [hdata]; rfl, by rw [hlink.objs, h.halves],
        fun _ => ⟨by rw [hlink.objs], cons_ne_nil v A⟩, fun _ => by rw [hlink.objs]⟩
      rw [State.objdelrec, if_neg (by rw [hdata]; simpa using hvd)]
  obtain ⟨s₂, hs2, hheap, hallocs, hdata, hhalves, hlock, hkeep⟩ := hdel
  have hne : (s₂.objs t).data ≠ some d := fun heq => by
    rw [hdata] at heq
    have hmem := mem_of_head? heq
    simp only [mem_append] at hmem
    tauto
  have hheapne : ∀ a, a ≠ d → (s₂.free d).heap a = s₁.heap a := fun a ha => by
    rw [State.free, ← hheap]
    exact update_of_ne ha _ _
  have hmemne : ∀ a ∈ A ++ B, a ≠ d := fun a ha heq => by
    rw [heq, mem_append] at ha
    tauto
  have hnamene : ∀ a, a ≠ d → (s₂.free d).name a = s.name a := fun a ha => by
    rw [State.name, hheapne a ha, ← hlink.name]
    rfl
  refine ⟨s₁, s₂, hs1, hs2, applyDelrec_eq hne hs2 subgraphs, ?_, fun a ha hobj => ?_⟩
  · exact
      { circular := hcirc1.congr fun a ha => by rw [State.next, hheapne a (hmemne a ha)]; rfl
        live := fun a ha => by
          rw [hheapne a (hmemne a ha), hlink.live]
          exact h.live a (by simp at ha ⊢; tauto)
        lt := fun a ha => by
          have hlt := h.lt a (by simp at ha ⊢; tauto)
          rw [← hlink.allocs, ← hallocs] at hlt
          exact hlt
        nodup := nodup_append_comm.1 (nodup_cons.1 hrot).2
        names := by
          have hmap : (A ++ B).map (s₂.free d).name = (A ++ B).map s.name :=
            map_congr_left fun a ha => hnamene a (hmemne a ha)
          have hperm := (show (A ++ d :: B).Perm (d :: (A ++ B)) from perm_middle).symm.map s.name
          have herase := ((hperm.trans h.names).erase (s.name d)).symm
          rw [map_cons, erase_cons_head] at herase
          rw [hmap]
          exact herase.symm
        once := h.once.erase _
        data := hdata
        halves := hhalves
        lock := fun hl => by
          obtain ⟨-, hA⟩ := hlock hl
          simp [hA] }
  · have hdata' : (s.objs t).data ≠ some d := by rw [hobj]; simpa using ha
    exact ⟨by rw [hkeep hdata', hobj], hnamene a ha⟩

/-- What `agdelrec` does. A locked record with another name stays at the front. -/
theorem agdelrec_spec (h : Records s t bound ring) (name : CStr) (subgraphs : ℕ) :
    ∃ x s' ring', s.agdelrec t name subgraphs = .ok (x, s') ∧
      Records s' t (bound.erase name) ring' ∧
      (∀ a, s.name a ≠ name → s.objs t = ⟨some a, true⟩ →
        s'.objs t = ⟨some a, true⟩ ∧ s'.name a = s.name a) := by
  by_cases hname : name ∈ bound
  · obtain ⟨d, hd, rfl⟩ := h.name_mem.1 hname
    obtain ⟨A, B, rfl⟩ := append_of_mem hd
    have hget : ∃ s1 A' B', s.aggetrec t (s.name d) false = .ok (some d, s1) ∧
        Records s1 t bound (A' ++ d :: B') ∧ s1.name = s.name ∧ Keeps s s1 t := by
      have hrun := h.aggetrec_some false
      cases hlock : (s.objs t).mtflock with
      | true =>
        rw [hlock, if_pos rfl] at hrun
        exact ⟨s, A, B, hrun, h, rfl, Keeps.refl s t⟩
      | false =>
        rw [hlock, if_neg (by simp)] at hrun
        refine ⟨_, [], B ++ A, hrun, h.setData, rfl, fun a ha => ?_⟩
        rw [ha] at hlock
        cases hlock
    obtain ⟨s1, A', B', hs1, h1, hnames, hkeep⟩ := hget
    obtain ⟨s2, s3, hs2, hs3, hs3', h3, hkeep3⟩ := h1.delete_spec subgraphs
    refine ⟨.SUCCESS, s3.free d, A' ++ B', ?_, by rw [← hnames]; exact h3, fun a ha hobj => ?_⟩
    · rw [State.agdelrec, hs1, ok_bind]
      dsimp only
      rw [hs2, ok_bind]
      by_cases hgraph : t = .AGRAPH
      · rw [if_pos hgraph, hs3, ok_bind]
      · rw [if_neg hgraph, hs3', ok_bind]
    · obtain ⟨hobj1, -⟩ := hkeep a hobj
      have hne : a ≠ d := fun had => ha (by rw [had])
      rw [← hnames]
      exact hkeep3 a hne hobj1
  · refine ⟨.FAILURE, s, ring, ?_, by rwa [erase_of_not_mem hname],
      fun a _ hobj => ⟨hobj, rfl⟩⟩
    rw [State.agdelrec, h.aggetrec_none hname]
    rfl

end Records

/-! ## Runs -/

/-- The call deletes the record of a name. -/
def RecOp.Deletes (name : CStr) : RecOp → Prop
  | .agdelrec _ name' _ => name = name'
  | _ => False

namespace Records

/-- One call, on the object or on its other half. -/
theorem step {op : RecOp} (h : Records s t bound ring) (hobj : op.obj = t ∨ op.obj = agopp t) :
    ∃ s' ring', op.step s = .ok s' ∧ Records s' t (op.apply bound) ring' ∧
      (∀ a, ¬ op.Deletes (s.name a) → s.objs t = ⟨some a, true⟩ →
        s'.objs t = ⟨some a, true⟩ ∧ s'.name a = s.name a) := by
  have hself : ∀ t ring, Records s t bound ring → op.obj = t →
      ∃ s' ring', op.step s = .ok s' ∧ Records s' t (op.apply bound) ring' ∧
        (∀ a, ¬ op.Deletes (s.name a) → s.objs t = ⟨some a, true⟩ →
          s'.objs t = ⟨some a, true⟩ ∧ s'.name a = s.name a) := by
    rintro t ring h rfl
    cases op with
    | agbindrec obj recname recsize move_to_front =>
      obtain ⟨rec, s', ring', hs', h', hkeep⟩ := h.agbindrec_spec recname recsize move_to_front
      exact ⟨s', ring', congrArg (Prod.snd <$> ·) hs', h', fun a _ => hkeep a⟩
    | aggetrec obj name mtf =>
      obtain ⟨rec, s', ring', hs', h', -, -, hkeep⟩ := h.aggetrec_spec name mtf
      exact ⟨s', ring', congrArg (Prod.snd <$> ·) hs', h', fun a _ => hkeep a⟩
    | agdelrec obj name subgraphs =>
      obtain ⟨x, s', ring', hs', h', hkeep⟩ := h.agdelrec_spec name subgraphs
      exact ⟨s', ring', congrArg (Prod.snd <$> ·) hs', h', hkeep⟩
  obtain hobj | hobj := hobj
  · exact hself t ring h hobj
  · obtain ⟨s', ring', hs', h', hkeep⟩ := hself (agopp t) ring h.opp hobj
    have h'' := h'.opp
    rw [agopp_agopp] at h''
    refine ⟨s', ring', hs', h'', fun a ha hlock => ?_⟩
    obtain ⟨hdata, hname⟩ := hkeep a ha (by rw [h.halves, hlock])
    exact ⟨by rw [← h''.halves, hdata], hname⟩

/-- Calls, one after another. -/
theorem run {ops : List RecOp} (h : Records s t bound ring)
    (hobj : ∀ op ∈ ops, op.obj = t ∨ op.obj = agopp t) :
    ∃ s' ring', ops.foldlM RecOp.step s = .ok s' ∧
      Records s' t (ops.foldl RecOp.apply bound) ring' ∧
      (∀ a, (∀ op ∈ ops, ¬ op.Deletes (s.name a)) → s.objs t = ⟨some a, true⟩ →
        s'.objs t = ⟨some a, true⟩ ∧ s'.name a = s.name a) := by
  induction ops generalizing s bound ring with
  | nil => exact ⟨s, ring, rfl, h, fun a _ hlock => ⟨hlock, rfl⟩⟩
  | cons op ops ih =>
    obtain ⟨s1, ring1, hs1, h1, hkeep1⟩ := h.step (hobj op mem_cons_self)
    obtain ⟨s2, ring2, hs2, h2, hkeep2⟩ :=
      ih h1 fun op' hop' => hobj op' (mem_cons_of_mem op hop')
    refine ⟨s2, ring2, ?_, h2, fun a ha hlock => ?_⟩
    · rw [foldlM_cons, hs1]
      exact hs2
    · obtain ⟨hlock1, hname1⟩ := hkeep1 a (ha op mem_cons_self) hlock
      have ha1 : ∀ op' ∈ ops, ¬ op'.Deletes (s1.name a) := fun op' hop' => by
        rw [hname1]
        exact ha op' (mem_cons_of_mem op hop')
      obtain ⟨hlock2, hname2⟩ := hkeep2 a ha1 hlock1
      exact ⟨hlock2, hname2.trans hname1⟩

end Records

/-- Calls on an object, or on either half of an edge, in any order and with any names. None fails.
The records are one circular list with each name that is bound once, that both halves have,
`aggetrec` finds the names that are bound, and a record that is locked at the front is there until
a call deletes it. -/
theorem records_run (t : Objtype) (ops : List RecOp)
    (hobj : ∀ op ∈ ops, op.obj = t ∨ op.obj = agopp t) :
    ∃ s ring, ops.foldlM RecOp.step State.init = .ok s ∧
      Records s t (ops.foldl RecOp.apply []) ring ∧
      (∀ obj name mtf, obj = t ∨ obj = agopp t → ∃ rec s', s.aggetrec obj name mtf = .ok (rec, s') ∧
          (rec.isSome ↔ name ∈ ops.foldl RecOp.apply []) ∧
          ∀ a ∈ rec, a ∈ ring ∧ s.name a = name) ∧
      ∀ a, s.objs t = ⟨some a, true⟩ → ∀ more : List RecOp,
        (∀ op ∈ more, (op.obj = t ∨ op.obj = agopp t) ∧ ¬ op.Deletes (s.name a)) →
        ∃ s', more.foldlM RecOp.step s = .ok s' ∧ s'.objs t = ⟨some a, true⟩ ∧
          s'.objs (agopp t) = ⟨some a, true⟩ ∧ s'.name a = s.name a := by
  obtain ⟨s, ring, hs, h, -⟩ := Records.init.run hobj
  refine ⟨s, ring, hs, h, fun obj name mtf hobj => ?_, fun a hlock more hmore => ?_⟩
  · obtain rfl | rfl := hobj
    · obtain ⟨rec, s', -, hs', -, hbound, hrec, -⟩ := h.aggetrec_spec name mtf
      exact ⟨rec, s', hs', hbound, hrec⟩
    · obtain ⟨rec, s', -, hs', -, hbound, hrec, -⟩ := h.opp.aggetrec_spec name mtf
      exact ⟨rec, s', hs', hbound, hrec⟩
  · obtain ⟨s', ring', hs', h', hkeep⟩ := h.run fun op hop => (hmore op hop).1
    obtain ⟨hlock', hname⟩ := hkeep a (fun op hop => (hmore op hop).2) hlock
    exact ⟨s', hs', hlock', by rw [h'.halves, hlock'], hname⟩

/-- Two records of an edge, the first of which is locked at the front from the other half, and
deleted at last. -/
theorem records_run_edge :
    ∃ s ring, [RecOp.agbindrec .AGOUTEDGE [1] 8 false, .agbindrec .AGINEDGE [2] 8 true,
        .aggetrec .AGOUTEDGE [1] true, .agdelrec .AGOUTEDGE [2] 3].foldlM RecOp.step State.init =
          .ok s ∧ Records s .AGOUTEDGE [[1]] ring := by
  obtain ⟨s, ring, hs, h, -⟩ := records_run .AGOUTEDGE
    [.agbindrec .AGOUTEDGE [1] 8 false, .agbindrec .AGINEDGE [2] 8 true,
      .aggetrec .AGOUTEDGE [1] true, .agdelrec .AGOUTEDGE [2] 3] (by decide)
  exact ⟨s, ring, hs, h⟩

end Graphviz.Record
