import Graphviz.Util.Fault
import Graphviz.Util.Numeral

/-!
# The layers of a drawing (`common/emit.c`)

A graph names its layers, and selects some of them, in its attributes. `init_layering` reads the
attributes once; each output job then walks through the layers with `firstlayer`, `validlayer` and
`nextlayer`. The selected layers are kept in one array with a sentinel at its end, which the jobs
share; a job whose device has no layers moves the sentinel.
-/

namespace Graphviz.Emit

open Nat Outcome

/-- The attributes of a graph that are about layers; `agget` returns null for those that are not
declared. -/
structure graph_t where
  layers : Option CStr
  layerselect : Option CStr
  layersep : Option CStr
  layerlistsep : Option CStr

/-- The names of the layers are in `layerIDs`, the first one for layer 1. -/
structure GVC_t where
  layerDelims : CStr
  layerListDelims : CStr
  layerIDs : List CStr
  numLayers : ℤ
  layerlist : Option (List ℤ)

/-- `doesLayers` is the flag `GVDEVICE_DOES_LAYERS`. -/
structure GVJ_t where
  doesLayers : Bool
  numLayers : ℤ
  layerNum : ℤ

/-! ## The attributes -/

/-- `DEFAULT_LAYERSEP`. -/
def DEFAULT_LAYERSEP : CStr := lit ":\t "

/-- `DEFAULT_LAYERLISTSEP`. -/
def DEFAULT_LAYERLISTSEP : CStr := lit ","

/-- The tokens that `strtok` finds one after another. -/
def strtok (s delims : CStr) : List CStr :=
  (s.splitOnP (· ∈ delims)).filter (· ≠ [])

/-- `atoi`. -/
def atoi (s : CStr) : ℤ :=
  match strtol s with
  | some (n, _) => toInt32 n
  | none => 0

/-- `is_natural_number`. -/
def is_natural_number (sstr : CStr) : Bool :=
  sstr.all gv_isdigit

/-- `layer_index`. -/
def layer_index (gvc : GVC_t) (str : CStr) (all : ℤ) : ℤ :=
  if str = lit "all" then all
  else if is_natural_number str then atoi str
  else match gvc.layerIDs.findIdx? (· = str) with
    | some i => i + 1
    | none => -1

/-- One part of the list, in `selectedLayer`. -/
def selectedPart (gvc : GVC_t) (layerNum numLayers : ℤ) (cur : CStr) : Bool :=
  match strtok cur gvc.layerDelims with
  | [] => false
  | [w0] => layer_index gvc w0 layerNum = layerNum
  | w0 :: w1 :: _ =>
    let n0 := layer_index gvc w0 0
    let n1 := layer_index gvc w1 numLayers
    if 0 ≤ n0 ∨ 0 ≤ n1 then
      let (n0, n1) := if n1 < n0 then (n1, n0) else (n0, n1)
      n0 ≤ layerNum ∧ layerNum ≤ n1
    else false

/-- `selectedLayer`. -/
def selectedLayer (gvc : GVC_t) (layerNum numLayers : ℤ) (spec : CStr) : Bool :=
  (strtok spec gvc.layerListDelims).any (selectedPart gvc layerNum numLayers)

/-- The layers from `1` to `n`. -/
def layerNums (n : ℕ) : List ℤ :=
  (List.range n).map fun i : ℕ => (i : ℤ) + 1

/-- `parse_layerselect`: the number of the layers, the layers, and the sentinel, in an array of
`numLayers + 2`. -/
def parse_layerselect (gvc : GVC_t) (p : CStr) : Option (List ℤ) :=
  let laylist := (layerNums gvc.numLayers.toNat).filter
    fun i => selectedLayer gvc i gvc.numLayers p
  let cnt := laylist.length
  if cnt ≠ 0 then
    some ((cnt : ℤ) :: (laylist ++ (gvc.numLayers + 1) ::
      List.replicate (gvc.numLayers.toNat - cnt) 0))
  else none

/-- `parse_layers`. -/
def parse_layers (gvc : GVC_t) (g : graph_t) (p : CStr) : GVC_t :=
  let layerDelims := g.layersep.getD DEFAULT_LAYERSEP
  let layerListDelims := g.layerlistsep.getD DEFAULT_LAYERLISTSEP
  let layerListDelims := if layerDelims.any (· ∈ layerListDelims) then [] else layerListDelims
  let layerIDs := strtok p layerDelims
  { gvc with layerDelims, layerListDelims, layerIDs, numLayers := layerIDs.length }

/-- `init_layering`. -/
def init_layering (gvc : GVC_t) (g : graph_t) : GVC_t :=
  let gvc := { gvc with layerIDs := [], layerlist := none }
  match g.layers with
  | some str =>
    let gvc := parse_layers gvc g str
    match g.layerselect with
    | some str => if str ≠ [] then { gvc with layerlist := parse_layerselect gvc str } else gvc
    | none => gvc
  | none => { gvc with numLayers := 1 }

/-! ## The walk -/

/-- A load from the array of the selected layers. -/
def load (list : List ℤ) (i : ℕ) : Except Fault ℤ :=
  match list[i]? with
  | some x => .ok x
  | none => .error .segfault

/-- A store to the array. -/
def store (list : List ℤ) (i : ℕ) (x : ℤ) : Except Fault (List ℤ) :=
  if i < list.length then .ok (list.set i x) else .error .segfault

/-- `firstlayer`. The pointer into the array is an index of it, or null. -/
def firstlayer (gvc : GVC_t) (job : GVJ_t) : Except Fault (GVC_t × GVJ_t × Option ℕ) :=
  let job := { job with numLayers := gvc.numLayers }
  match gvc.layerlist with
  | some list => do
    let cnt ← load list 0
    -- the array is the one of all jobs
    let list ← if 1 < cnt ∧ ¬job.doesLayers then store list 2 (job.numLayers + 1) else .ok list
    let layerNum ← load list 1
    .ok ({ gvc with layerlist := some list }, { job with layerNum }, some 2)
  | none =>
    let job :=
      if (1 : ℤ) < job.numLayers ∧ ¬job.doesLayers then { job with numLayers := 1 } else job
    .ok (gvc, { job with layerNum := 1 }, none)

/-- `validlayer`. -/
def validlayer (job : GVJ_t) : Bool :=
  job.layerNum ≤ job.numLayers

/-- `nextlayer`. -/
def nextlayer (gvc : GVC_t) (job : GVJ_t) (listp : Option ℕ) : Except Fault (GVJ_t × Option ℕ) :=
  match listp, gvc.layerlist with
  | some k, some list => do
    let layerNum ← load list k
    .ok ({ job with layerNum }, some (k + 1))
  | some _, none => .error .segfault
  | none, _ => .ok ({ job with layerNum := job.layerNum + 1 }, none)

/-- The loop over the layers in `emit_graph`: the layers that are emitted. -/
def layerLoop (gvc : GVC_t) : ℕ → GVJ_t → Option ℕ → Except Fault (List ℤ)
  | 0, _, _ => .error .fuel
  | fuel + 1, job, listp =>
    if validlayer job then do
      let (job', listp) ← nextlayer gvc job listp
      let visited ← layerLoop gvc fuel job' listp
      .ok (job.layerNum :: visited)
    else .ok []

/-- `emit_graph`. -/
def emit_graph (gvc : GVC_t) (job : GVJ_t) : Except Fault (GVC_t × List ℤ) := do
  let (gvc, job, listp) ← firstlayer gvc job
  let visited ← layerLoop gvc (gvc.numLayers.toNat + 1) job listp
  .ok (gvc, visited)

/-- The jobs one after another. -/
def emitJobs (gvc : GVC_t) : List GVJ_t → Except Fault (List (List ℤ))
  | [] => .ok []
  | job :: jobs => do
    let (gvc, visited) ← emit_graph gvc job
    let rest ← emitJobs gvc jobs
    .ok (visited :: rest)

/-- `gvRenderJobs`: the layers that each of the jobs emits. -/
def gvRenderJobs (gvc : GVC_t) (g : graph_t) (jobs : List GVJ_t) : Except Fault (List (List ℤ)) :=
  emitJobs (init_layering gvc g) jobs

end Graphviz.Emit

/-!
## What the jobs emit (`common/emit.c`)

A job emits the layers of the array up to its sentinel. It emits those it should unless there is no
layer at all, or a job without layers has moved the sentinel before.
-/

namespace Graphviz.Emit

open List Outcome

variable {gvc : GVC_t} {g : graph_t} {job : GVJ_t} {jobs : List GVJ_t} {list l rest : List ℤ}
  {a c : ℤ} {i k n fuel : ℕ}

/-! ## What should be emitted -/

/-- The layers of the graph: those that are named, or the one of a graph without names. -/
def allLayers (g : graph_t) : List ℤ :=
  match g.layers with
  | some str => layerNums (max 1 (strtok str (g.layersep.getD DEFAULT_LAYERSEP)).length)
  | none => layerNums 1

/-- The layers that the attribute selects. -/
def matched (gvc : GVC_t) (g : graph_t) : List ℤ :=
  match g.layers, g.layerselect with
  | some _, some str =>
    let gvc := init_layering gvc g
    if str = [] then [] else (allLayers g).filter fun i => selectedLayer gvc i gvc.numLayers str
  | _, _ => []

/-- The layers that are selected: all of them if the attribute selects none. -/
def selected (gvc : GVC_t) (g : graph_t) : List ℤ :=
  if matched gvc g = [] then allLayers g else matched gvc g

/-- What a job has to emit: the first layer alone if the device has no layers. -/
def expected (gvc : GVC_t) (g : graph_t) (job : GVJ_t) : List ℤ :=
  if job.doesLayers then selected gvc g else (selected gvc g).take 1

/-- The attribute, if there is one, names a layer. -/
def HasLayer (g : graph_t) : Prop :=
  ∀ str ∈ g.layers, strtok str (g.layersep.getD DEFAULT_LAYERSEP) ≠ []

/-- The layers from one on. -/
theorem mem_layerNums {x : ℤ} : x ∈ layerNums n ↔ 1 ≤ x ∧ x ≤ n := by
  simp only [layerNums, mem_map, mem_range]
  constructor
  · rintro ⟨i, hi, rfl⟩
    omega
  · rintro ⟨hpos, hle⟩
    exact ⟨(x - 1).toNat, by omega, by omega⟩

theorem length_layerNums : (layerNums n).length = n := by
  rw [layerNums, length_map, length_range]

theorem take_layerNums (hn : n ≠ 0) : (layerNums n).take 1 = layerNums 1 := by
  obtain ⟨m, rfl⟩ := Nat.exists_eq_succ_of_ne_zero hn
  rw [layerNums, range_succ_eq_map]
  rfl

/-! ## One walk -/

theorem nextlayer_list (hlist : gvc.layerlist = some list) (hget : list[k]? = some a) :
    nextlayer gvc job (some k) = .ok ({ job with layerNum := a }, some (k + 1)) := by
  simp only [nextlayer, hlist, load, hget, ok_bind]

/-- From a place in the array the walk goes up to the sentinel. -/
theorem layerLoop_list (hlist : gvc.layerlist = some list) (hle : ∀ x ∈ l, x ≤ job.numLayers)
    (hjob : job.layerNum ≤ job.numLayers)
    (hdrop : list.drop k = l ++ (job.numLayers + 1) :: rest) (hfuel : l.length + 1 < fuel) :
    layerLoop gvc fuel job (some k) = .ok (job.layerNum :: l) := by
  induction l generalizing job k fuel with
  | nil =>
    obtain ⟨fuel, rfl⟩ := Nat.exists_eq_add_of_lt hfuel
    have hget : list[k]? = some (job.numLayers + 1) := by
      rw [← head?_drop, hdrop]
      rfl
    have hvalid : validlayer job = true := decide_eq_true hjob
    have hstop : ¬validlayer { job with layerNum := job.numLayers + 1 } = true := by
      rw [validlayer, decide_eq_true_eq]
      exact not_le.2 (lt_add_one job.numLayers)
    rw [layerLoop, if_pos hvalid, nextlayer_list hlist hget, ok_bind]
    dsimp only
    rw [length_nil, zero_add, add_comm, layerLoop, if_neg hstop]
    rfl
  | cons x l ih =>
    obtain ⟨fuel, rfl⟩ := Nat.exists_eq_add_of_lt hfuel
    have hget : list[k]? = some x := by
      rw [← head?_drop, hdrop]
      rfl
    have htail : list.drop (k + 1) = l ++ (job.numLayers + 1) :: rest := by
      rw [← tail_drop, hdrop]
      rfl
    have hrec : layerLoop gvc ((x :: l).length + 1 + fuel) { job with layerNum := x }
        (some (k + 1)) = .ok (x :: l) :=
      ih (fun y hy => hle y (mem_cons_of_mem _ hy)) (hle x mem_cons_self) htail
        (by rw [List.length_cons]; omega)
    have hvalid : validlayer job = true := decide_eq_true hjob
    rw [layerLoop, if_pos hvalid, nextlayer_list hlist hget, ok_bind]
    dsimp only
    rw [hrec]
    rfl

/-- Without an array the walk goes through all layers. -/
theorem layerLoop_count (hi : job.layerNum = i + 1) (hn : job.numLayers = n) (hin : i ≤ n)
    (hfuel : n < fuel + i) : layerLoop gvc fuel job none = .ok ((layerNums n).drop i) := by
  induction fuel generalizing job i with
  | zero => omega
  | succ fuel ih =>
    rw [layerLoop]
    obtain hlt | hge := lt_or_ge i n
    · have hvalid : validlayer job = true := decide_eq_true (by omega)
      have hrec : layerLoop gvc fuel { job with layerNum := job.layerNum + 1 } none =
          .ok ((layerNums n).drop (i + 1)) :=
        ih (by rw [hi]; push_cast; rfl) hn hlt (by omega)
      have hdrop : (layerNums n).drop i = job.layerNum :: (layerNums n).drop (i + 1) := by
        rw [drop_eq_getElem_cons (by rwa [length_layerNums])]
        simp [layerNums, hi]
      rw [if_pos hvalid, nextlayer]
      simp only [ok_bind, hrec, hdrop]
    · have hvalid : ¬validlayer job = true := by
        rw [validlayer, decide_eq_true_eq]
        omega
      rw [if_neg hvalid, drop_eq_nil_of_le (by rw [length_layerNums]; exact hge)]

/-- The array holds these layers before its sentinel, and says that there are `c` of them. -/
structure Holding (gvc : GVC_t) (c a : ℤ) (l : List ℤ) : Prop where
  list : ∃ rest, gvc.layerlist = some (c :: a :: (l ++ (gvc.numLayers + 1) :: rest))
  le : ∀ x ∈ a :: l, x ≤ gvc.numLayers
  length : (a :: l).length ≤ gvc.numLayers.toNat

theorem emit_graph_eq {gvc' : GVC_t} {job' : GVJ_t} {listp : Option ℕ}
    (hfirst : firstlayer gvc job = .ok (gvc', job', listp))
    (hwalk : layerLoop gvc' (gvc'.numLayers.toNat + 1) job' listp = .ok l) :
    emit_graph gvc job = .ok (gvc', l) := by
  rw [emit_graph, hfirst, ok_bind]
  dsimp only
  rw [hwalk]
  rfl

/-- The layers that are left in the array when a job has started. -/
def keep (job : GVJ_t) (l : List ℤ) : List ℤ :=
  if job.doesLayers then l else []

theorem keep_nil : keep job [] = [] := by
  rw [keep]
  split <;> rfl

/-- A job that has no layers moves the sentinel. -/
theorem firstlayer_list (job : GVJ_t) (h : Holding gvc c a l) (hc : 1 < c ∨ l = []) :
    ∃ rest, firstlayer gvc job =
      .ok ({ gvc with layerlist := some (c :: a :: (keep job l ++ (gvc.numLayers + 1) :: rest)) },
        { job with numLayers := gvc.numLayers, layerNum := a }, some 2) := by
  obtain ⟨⟨rest, hlist⟩, _, _⟩ := h
  rw [firstlayer, hlist]
  obtain ⟨hone, hdoes⟩ | hall := Decidable.em (1 < c ∧ ¬job.doesLayers)
  swap
  · have hkeep : keep job l = l := by
      rw [keep]
      split
      · rfl
      · next hdoes => exact (hc.resolve_left fun h => hall ⟨h, hdoes⟩).symm
    refine ⟨rest, ?_⟩
    simp only [load, getElem?_cons_zero, getElem?_cons_succ, ok_bind, if_neg hall, hkeep]
  · have hkeep : keep job l = [] := if_neg hdoes
    obtain ⟨rest', hrest⟩ : ∃ rest', (c :: a :: (l ++ (gvc.numLayers + 1) :: rest)).set 2
        (gvc.numLayers + 1) = c :: a :: ((gvc.numLayers + 1) :: rest') := by
      cases l with
      | nil => exact ⟨_, rfl⟩
      | cons x l => exact ⟨_, rfl⟩
    have hstore : store (c :: a :: (l ++ (gvc.numLayers + 1) :: rest)) 2 (gvc.numLayers + 1) =
        .ok (c :: a :: ((gvc.numLayers + 1) :: rest')) := by
      rw [store, if_pos, hrest]
      simp only [List.length_cons, length_append]
      omega
    refine ⟨rest', ?_⟩
    simp [load, ok_bind, hkeep, hdoes, hone, hstore]

/-- A job walks through the layers that are left in the array. -/
theorem emit_graph_list (job : GVJ_t) (h : Holding gvc c a l) (hc : 1 < c ∨ l = []) :
    ∃ gvc', emit_graph gvc job = .ok (gvc', a :: keep job l) ∧ Holding gvc' c a (keep job l) := by
  obtain ⟨rest, hfirst⟩ := firstlayer_list job h hc
  have hsub : (a :: keep job l).Sublist (a :: l) := by
    rw [keep]
    split
    · exact Sublist.refl _
    · exact (nil_sublist l).cons_cons a
  have hle : ∀ x ∈ a :: keep job l, x ≤ gvc.numLayers := fun x hx => h.le x (hsub.subset hx)
  have hlen := hsub.length_le.trans h.length
  refine ⟨_, emit_graph_eq hfirst ?_, ⟨⟨rest, rfl⟩, hle, hlen⟩⟩
  exact layerLoop_list rfl (fun x hx => hle x (mem_cons_of_mem _ hx))
    (hle a mem_cons_self) rfl (Nat.lt_succ_of_le hlen)

/-- Without an array a job emits all layers, or the first one. -/
theorem emit_graph_count (job : GVJ_t) (hlist : gvc.layerlist = none) (hn : gvc.numLayers = n) :
    emit_graph gvc job =
      .ok (gvc, if job.doesLayers then layerNums n else (layerNums n).take 1) := by
  obtain hone | hall := Decidable.em ((1 : ℤ) < gvc.numLayers ∧ ¬job.doesLayers)
  · have hfirst : firstlayer gvc job =
        .ok (gvc, { job with numLayers := 1, layerNum := 1 }, none) := by
      simp [firstlayer, hlist, hone]
    refine emit_graph_eq hfirst ?_
    rw [if_neg hone.2, layerLoop_count (Int.zero_add 1).symm (Int.natCast_one).symm (Nat.zero_le 1)
      (by omega), take_layerNums (by omega)]
    rfl
  · have hfirst : firstlayer gvc job =
        .ok (gvc, { job with numLayers := n, layerNum := 1 }, none) := by
      rw [firstlayer, hlist]
      dsimp only
      rw [if_neg hall, hn]
    · refine emit_graph_eq hfirst ?_
      rw [layerLoop_count (Int.zero_add 1).symm rfl (Nat.zero_le n) (by omega), drop_zero]
      split
      · rfl
      · next hdoes =>
        have hle : n ≤ 1 := by
          by_contra hgt
          exact hall ⟨by omega, hdoes⟩
        rw [take_of_length_le (by rwa [length_layerNums])]

/-! ## All jobs -/

/-- What the jobs emit from an array. -/
def walks (a : ℤ) : List ℤ → List GVJ_t → List (List ℤ)
  | _, [] => []
  | l, job :: jobs => (a :: keep job l) :: walks a (keep job l) jobs

theorem emitJobs_list (h : Holding gvc c a l) (hc : 1 < c ∨ l = []) :
    emitJobs gvc jobs = .ok (walks a l jobs) := by
  induction jobs generalizing gvc l with
  | nil => rfl
  | cons job jobs ih =>
    obtain ⟨gvc', hemit, h'⟩ := emit_graph_list job h hc
    rw [emitJobs, hemit, ok_bind]
    dsimp only
    rw [ih h' (hc.imp_right fun hl => by rw [hl, keep_nil])]
    rfl

/-- The jobs that emit the same whatever came before. -/
theorem emitJobs_of_same (jobs : List GVJ_t) {f : GVJ_t → List ℤ}
    (h : ∀ job, emit_graph gvc job = .ok (gvc, f job)) : emitJobs gvc jobs = .ok (jobs.map f) := by
  induction jobs with
  | nil => rfl
  | cons job jobs ih =>
    rw [emitJobs, h, ok_bind]
    dsimp only
    rw [ih]
    rfl

theorem walks_nil : walks a [] jobs = jobs.map fun _ => [a] := by
  induction jobs with
  | nil => rfl
  | cons job jobs ih =>
    rw [walks, keep_nil, ih, map_cons]

/-- Each job emits what it should when no job without layers comes before one with layers. -/
theorem walks_eq_iff (hl : l ≠ []) : walks a l jobs = jobs.map (fun job => a :: keep job l) ↔
    jobs.Pairwise fun job job' => job'.doesLayers → job.doesLayers := by
  induction jobs with
  | nil => exact ⟨fun _ => Pairwise.nil, fun _ => rfl⟩
  | cons job jobs ih =>
    rw [walks, map_cons, cons_inj_right, pairwise_cons]
    cases hdoes : job.doesLayers with
    | true =>
      have hkeep : keep job l = l := by rw [keep, if_pos hdoes]
      rw [hkeep, ih]
      exact ⟨fun h => ⟨fun _ _ _ => rfl, h⟩, And.right⟩
    | false =>
      have hkeep : keep job l = [] := by rw [keep, if_neg (by rw [hdoes]; exact Bool.false_ne_true)]
      rw [hkeep, walks_nil, map_inj_left]
      have hone : ∀ job' : GVJ_t, [a] = a :: keep job' l ↔ ¬job'.doesLayers := by
        intro job'
        rw [keep, cons_inj_right]
        split
        · next h => exact ⟨fun heq => absurd heq.symm hl, fun hn => absurd h hn⟩
        · next h => exact ⟨fun _ => h, fun _ => rfl⟩
      constructor
      · intro h
        have hnone : ∀ job' ∈ jobs, ¬job'.doesLayers := fun job' hj => (hone job').1 (h job' hj)
        refine ⟨fun job' hj hd => absurd hd (hnone job' hj), ?_⟩
        exact pairwise_of_forall_mem_list fun x _ y hy hd => absurd hd (hnone y hy)
      · exact fun h job' hj => (hone job').2 fun hd => absurd (h.1 job' hj hd) Bool.false_ne_true

/-- What `init_layering` leaves, when the graph has the attribute. -/
theorem init_layering_some (gvc : GVC_t) {str : CStr} (hlayers : g.layers = some str) :
    (init_layering gvc g).numLayers = (strtok str (g.layersep.getD DEFAULT_LAYERSEP)).length ∧
      (init_layering gvc g).layerlist = match g.layerselect with
        | some sel => if sel ≠ [] then parse_layerselect (init_layering gvc g) sel else none
        | none => none := by
  rw [init_layering, hlayers]
  dsimp only
  cases g.layerselect with
  | none => exact ⟨rfl, rfl⟩
  | some sel =>
    dsimp only
    split <;> exact ⟨rfl, rfl⟩

theorem selected_ne_nil (gvc : GVC_t) (g : graph_t) : selected gvc g ≠ [] := by
  unfold selected
  split
  · have hone : (1 : ℤ) ∈ allLayers g := by
      unfold allLayers
      split
      · exact mem_layerNums.2 ⟨le_rfl, by push_cast; exact le_max_left _ _⟩
      · exact mem_layerNums.2 ⟨le_rfl, le_rfl⟩
    exact ne_nil_of_mem hone
  · assumption

/-- Without an array the jobs emit all layers. -/
theorem gvRenderJobs_count (hlist : (init_layering gvc g).layerlist = none)
    (hn : (init_layering gvc g).numLayers = n) (hone : n ≠ 0 → selected gvc g = layerNums n)
    (hhas : HasLayer g ↔ n ≠ 0) :
    gvRenderJobs gvc g jobs = .ok (jobs.map (expected gvc g)) ↔ jobs = [] ∨ HasLayer g := by
  have hrun := emitJobs_of_same jobs fun job => emit_graph_count job hlist hn
  rw [gvRenderJobs, hrun, Except.ok.injEq, hhas]
  obtain rfl | hn := eq_or_ne n 0
  · cases jobs with
    | nil => simp
    | cons job jobs =>
      have hexp : expected gvc g job ≠ [] := by
        obtain ⟨x, l, hl⟩ := exists_cons_of_ne_nil (selected_ne_nil gvc g)
        rw [expected, hl]
        split <;> simp
      have hnone : (if job.doesLayers = true then layerNums 0 else (layerNums 0).take 1) = [] := by
        split <;> rfl
      rw [map_cons, map_cons, hnone]
      exact ⟨fun heq => absurd (List.cons.inj heq).1.symm hexp, fun h => by simp at h⟩
  · refine ⟨fun _ => .inr hn, fun _ => map_congr_left fun job _ => ?_⟩
    rw [expected, hone hn]

/-- The array that `parse_layerselect` makes, if any, holds the layers that match. -/
theorem layerlist_spec {str : CStr} (hlayers : g.layers = some str)
    (hn : (init_layering gvc g).numLayers = n) (hall : n ≠ 0 → allLayers g = layerNums n) :
    (init_layering gvc g).layerlist = none ∧ (n ≠ 0 → matched gvc g = []) ∨
      ∃ a l, n ≠ 0 ∧ matched gvc g = a :: l ∧
        Holding (init_layering gvc g) ((a :: l).length : ℕ) a l := by
  have hlist := (init_layering_some gvc hlayers).2
  have hmatch : matched gvc g = match g.layerselect with
      | some sel => if sel = [] then [] else (allLayers g).filter fun i =>
          selectedLayer (init_layering gvc g) i (init_layering gvc g).numLayers sel
      | none => [] := by
    rw [matched, hlayers]
    cases g.layerselect <;> rfl
  have htoNat : (init_layering gvc g).numLayers.toNat = n := by rw [hn, Int.toNat_natCast]
  generalize init_layering gvc g = gvc' at *
  cases hsel : g.layerselect with
  | none =>
    rw [hsel] at hlist hmatch
    exact .inl ⟨hlist, fun _ => hmatch⟩
  | some sel =>
    rw [hsel] at hlist hmatch
    dsimp only at hlist hmatch
    obtain hnil | hne := eq_or_ne sel []
    · rw [if_neg (not_not.2 hnil)] at hlist
      rw [if_pos hnil] at hmatch
      exact .inl ⟨hlist, fun _ => hmatch⟩
    rw [if_pos hne, parse_layerselect, htoNat] at hlist
    rw [if_neg hne] at hmatch
    cases hm : (layerNums n).filter (fun i => selectedLayer gvc' i gvc'.numLayers sel) with
    | nil =>
      rw [hm] at hlist
      exact .inl ⟨hlist, fun h0 => by rw [hmatch, hall h0, hm]⟩
    | cons a l =>
      rw [hm] at hlist
      have hsub : ∀ x ∈ a :: l, x ∈ layerNums n := fun x hx => mem_of_mem_filter (hm ▸ hx)
      have hlen : (a :: l).length ≤ n := by
        rw [← hm]
        exact (length_filter_le _ _).trans (le_of_eq length_layerNums)
      have h0 : n ≠ 0 := (Nat.lt_of_lt_of_le (Nat.succ_pos _) hlen).ne'
      refine .inr ⟨a, l, h0, by rw [hmatch, hall h0, hm], ⟨⟨_, hlist⟩, fun x hx => ?_, ?_⟩⟩
      · rw [hn]
        exact (mem_layerNums.1 (hsub x hx)).2
      · rwa [htoNat]

/-- With an array that holds some layers, these are what the jobs emit. -/
theorem gvRenderJobs_list (h : Holding (init_layering gvc g) ((a :: l).length : ℕ) a l)
    (hm : matched gvc g = a :: l) :
    gvRenderJobs gvc g jobs = .ok (jobs.map (expected gvc g)) ↔ (matched gvc g).length ≤ 1 ∨
        jobs.Pairwise fun job job' => job'.doesLayers → job.doesLayers := by
  have hexp : expected gvc g = fun job => a :: keep job l := by
    funext job
    have hsel : selected gvc g = a :: l := by
      rw [selected, if_neg (by rw [hm]; exact cons_ne_nil a l), hm]
    rw [expected, hsel, keep]
    split <;> rfl
  have hc : (1 : ℤ) < ((a :: l).length : ℕ) ∨ l = [] := by
    obtain rfl | hl := eq_nil_or_concat l
    · exact .inr rfl
    · have hpos := length_pos_of_ne_nil (l := l) (by rintro rfl; simp at hl)
      exact .inl (by rw [List.length_cons]; omega)
  rw [gvRenderJobs, emitJobs_list h hc, Except.ok.injEq, hexp, hm]
  obtain rfl | hl := eq_or_ne l []
  · refine ⟨fun _ => .inl le_rfl, fun _ => ?_⟩
    rw [walks_nil]
    exact map_congr_left fun job _ => by rw [keep_nil]
  · rw [walks_eq_iff hl]
    have hlen : ¬(a :: l).length ≤ 1 := by
      have hpos := length_pos_of_ne_nil hl
      rw [List.length_cons]
      omega
    exact ⟨.inr, fun h => h.resolve_left hlen⟩

/-- The jobs emit what they should exactly when the graph has a layer, and no job without layers
comes before one with layers when several layers are selected. -/
theorem gvRenderJobs_iff (gvc : GVC_t) (g : graph_t) (jobs : List GVJ_t) :
    gvRenderJobs gvc g jobs = .ok (jobs.map (expected gvc g)) ↔ (jobs = [] ∨ HasLayer g) ∧
      ((matched gvc g).length ≤ 1 ∨
        jobs.Pairwise fun job job' => job'.doesLayers → job.doesLayers) := by
  cases hlayers : g.layers with
  | none =>
    have hm : matched gvc g = [] := by rw [matched, hlayers]
    have hinit : init_layering gvc g =
        { gvc with layerIDs := [], layerlist := none, numLayers := 1 } := by
      rw [init_layering, hlayers]
    have hcount : gvRenderJobs gvc g jobs = .ok (jobs.map (expected gvc g)) ↔
        jobs = [] ∨ HasLayer g :=
      gvRenderJobs_count (n := 1) (by rw [hinit]) (by rw [hinit]; rfl)
        (fun _ => by rw [selected, if_pos hm, allLayers, hlayers]) (by simp [HasLayer, hlayers])
    rw [hcount, hm]
    exact ⟨fun h => ⟨h, .inl (Nat.zero_le _)⟩, And.left⟩
  | some str =>
    have hn := (init_layering_some gvc hlayers).1
    have hhas : HasLayer g ↔ (strtok str (g.layersep.getD DEFAULT_LAYERSEP)).length ≠ 0 := by
      rw [HasLayer, hlayers, Ne, length_eq_zero_iff]
      simp
    have hall : allLayers g =
        layerNums (max 1 (strtok str (g.layersep.getD DEFAULT_LAYERSEP)).length) := by
      rw [allLayers, hlayers]
    generalize (strtok str (g.layersep.getD DEFAULT_LAYERSEP)).length = n at hn hhas hall
    have hall' : n ≠ 0 → allLayers g = layerNums n := fun h0 => by
      rw [hall, max_eq_right (Nat.one_le_iff_ne_zero.2 h0)]
    obtain ⟨hnone, hm⟩ | ⟨a, l, h0, hm, hhold⟩ := layerlist_spec hlayers hn hall'
    · rw [gvRenderJobs_count hnone hn (fun h0 => by rw [selected, if_pos (hm h0), hall' h0]) hhas]
      refine ⟨fun h => ⟨h, ?_⟩, And.left⟩
      obtain rfl | h := h
      · exact .inr Pairwise.nil
      · rw [hm (hhas.1 h)]
        exact .inl (Nat.zero_le _)
    · rw [gvRenderJobs_list hhold hm]
      exact ⟨fun h => ⟨.inr (hhas.2 h0), h⟩, And.right⟩

/-- A job without layers and then one with layers; and a graph that names no layer. -/
theorem gvRenderJobs_disturbed :
    let g : graph_t := ⟨some (lit "a:b:c"), some (lit "all"), none, none⟩
    let g' : graph_t := ⟨some [], none, none, none⟩
    let gvc : GVC_t := ⟨[], [], [], 0, none⟩
    let jobs : List GVJ_t := [⟨false, 0, 0⟩, ⟨true, 0, 0⟩]
    (gvRenderJobs gvc g jobs = .ok [[1], [1]] ∧ jobs.map (expected gvc g) = [[1], [1, 2, 3]]) ∧
      gvRenderJobs gvc g' jobs = .ok [[], []] ∧ jobs.map (expected gvc g') = [[1], [1]] := by
  decide +kernel

end Graphviz.Emit
