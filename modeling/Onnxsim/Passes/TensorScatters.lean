import Onnxsim.Passes.Scatters

namespace Onnxsim.Passes.TensorScatters

open List Option Overflow.Arrays PartialShape.Reshaping
open ConstantGathers (ElemType vector)
open GatherNd (rangeOf_spec shape_vector)
open Gathers IndexArrays NamedDims
open Scatters (expandTo scatter scatterElements)
open ShapeSlices (wrap64 wrap64_of_fits)
open Spreading
open Reduce.Axes (ofFn_congr)
open Reduce.Fusion (Dimension)
open ShapeRanges.Broadcasting (actualBroadcast2 actualBroadcastDim actualBroadcastDims actualPad)
open Slicing.Rules (Fits)

variable {α : Type} [Inhabited α]

/-- The third input; an edge from an undefined node spells out that there is none. -/
inductive ThirdInput where
  | undefined
  | given (elemType : ElemType) (sizes : Option (List Dimension))

structure TensorScatterNode where
  domain : Option String
  inputs : Nat
  outputs : Nat
  cacheSizes : Option (List Dimension)
  updateSizes : Option (List Dimension)
  third : ThirdInput
  mode : Option String
  axis : Option Int

def normalizeAxis (axis r : Int) : Option Int :=
  let a := if axis.tmod r < 0 then axis.tmod r + r else axis.tmod r
  if a ≤ 0 ∨ r ≤ a then none else some a

def hasWriteIndices (node : TensorScatterNode) : Bool :=
  match node.third with
  | .given _ _ => node.inputs == 3
  | .undefined => false

/-- Sizes of another rank are recorded of the write indices. -/
def writeIndicesMisranked (node : TensorScatterNode) : Bool :=
  match node.third with
  | .given _ (some sizes) => node.inputs == 3 && sizes.length != 1
  | _ => false

def patternMatchPredicate (node : TensorScatterNode) : Bool :=
  if node.domain.getD "" ≠ "" then false
  else if (node.inputs ≠ 2 ∧ node.inputs ≠ 3) ∨ node.outputs ≠ 1 then false
  else
    match node.cacheSizes, node.updateSizes with
    | some cache, some update =>
      if cache.length < 2 ∨ update.length ≠ cache.length then false
      else if writeIndicesMisranked node then false
      else if node.mode.getD "linear" ≠ "linear" ∧ node.mode.getD "linear" ≠ "circular" then false
      else (normalizeAxis (node.axis.getD (-2)) cache.length).isSome
    | _, _ => false

/-- The nodes that are put in the place of a TensorScatter: `write` says whether the write indices are added, and
whether they are cast first. -/
structure Lowering where
  rank : Nat
  axisNorm : Nat
  write : Option Bool
  circular : Bool
  axis : Int
deriving DecidableEq

def runTransform (node : TensorScatterNode) : Option Lowering :=
  let r := (node.cacheSizes.getD []).length
  (normalizeAxis (node.axis.getD (-2)) r).map fun axisNorm =>
    { rank := r
      axisNorm := axisNorm.toNat
      write :=
        match node.third with
        | .given elemType _ => if node.inputs = 3 then some (elemType != .int64) else none
        | .undefined => none
      circular := node.mode.getD "linear" == "circular"
      axis := node.axis.getD (-2) }

def rewriteTensorScatterToScatterElements (node : TensorScatterNode) : Option Lowering :=
  if patternMatchPredicate node then runTransform node else none

/-- The remainder with the sign of the divisor; no element may be divided by zero. -/
def modulo (x y : NDArray Int) : Option (NDArray Int) :=
  (binary Int.fmod x y).bind fun z => if z.data ≠ [] ∧ 0 ∈ y.data then none else some z

def lineShape (r k : Nat) : NDArray Int := vector ((List.replicate r 1).set k (-1))

/-- The write indices are folded in. The Cast keeps the values, which are `int64` in a valid TensorScatter. -/
def Lowering.foldIn (l : Lowering) (writeIndices indices : NDArray Int) : Option (NDArray Int) :=
  if l.write.isSome then (reshape writeIndices (lineShape l.rank 0)).bind fun wi => add wi indices else some indices

def Lowering.wrapAround (l : Lowering) (cache : NDArray α) (indices : NDArray Int) : Option (NDArray Int) :=
  if l.circular then (gather 0 (shapeOf cache) (scalar l.axisNorm)).bind fun maxSeq => modulo indices maxSeq
  else some indices

def Lowering.indices (l : Lowering) (cache update : NDArray α) (writeIndices : NDArray Int) : Option (NDArray Int) := do
  let seqLen ← gather 0 (shapeOf update) (scalar l.axisNorm)
  let axisIota ← rangeOf (scalar 0) seqLen (scalar 1)
  let iota ← reshape axisIota (lineShape l.rank l.axisNorm)
  let sum ← l.foldIn writeIndices iota
  let wrapped ← l.wrapAround cache sum
  expandTo wrapped (shapeOf update)

/-- The place in the cache of the element `i` of a sequence: the sum has to be an `int64`, and the place in the cache. -/
def cacheSequenceIdx (circular : Bool) (maxSeq : Nat) (start : Int) (i : Nat) : Option Nat :=
  if Fits (start + i) then place maxSeq (if circular then (start + i).fmod maxSeq else start + i) else none

def startOf (writeIndices : Option (NDArray Int)) (batch : Nat) : Int :=
  match writeIndices with
  | some w => readAt w [batch]
  | none => 0

/-- The slice of the update at `prefix, i` replaces that of the cache at `prefix, j`. -/
def writeSlice (k : Nat) (update present : NDArray α) (p : List Nat) (i j : Nat) : NDArray α :=
  NDArray.ofFn present.shape fun q =>
    if q.take (k + 1) = p ++ [j] then readAt update (q.set k i) else readAt present q

/-- TensorScatter: a loop over the prefixes and, within each of them, over the sequence. -/
def tensorScatter (circular : Bool) (axis : Int) (cache update : NDArray α) (writeIndices : Option (NDArray Int)) :
    Option (NDArray α) :=
  (place cache.shape.length axis).bind fun k =>
    let maxSeq := cache.shape.getD k 0
    let seqLen := update.shape.getD k 0
    if k ≠ 0 ∧ update.shape = cache.shape.set k seqLen ∧ seqLen ≤ maxSeq ∧
        ∀ w ∈ writeIndices, w.shape = [cache.shape.headD 0] then
      (indices (cache.shape.take k) ×ˢ List.range seqLen).foldlM (fun present pi =>
        (cacheSequenceIdx circular maxSeq (startOf writeIndices (pi.1.headD 0)) pi.2).map fun j =>
          writeSlice k update present pi.1 pi.2 j) cache
    else none

/-- A TensorScatter that is rewritten, on operands that it is valid on and for which the recorded sizes hold. -/
structure TensorScatterRun (α : Type) [Inhabited α] where
  node : TensorScatterNode
  lowering : Lowering
  fires : rewriteTensorScatterToScatterElements node = some lowering
  symbols : String → Nat
  cache : NDArray α
  update : NDArray α
  writeIndices : NDArray Int
  cacheHolds : Conforms symbols node.cacheSizes cache.shape
  updateHolds : Conforms symbols node.updateSizes update.shape
  out : NDArray α
  valid : tensorScatter (node.mode.getD "linear" == "circular") (node.axis.getD (-2)) cache update
    (if hasWriteIndices node then some writeIndices else none) = some out

/-- The place at which the loop of the TensorScatter writes an element of the update. -/
def TensorScatterRun.place? (r : TensorScatterRun α) (p : List Nat) : Option (List Nat) :=
  let k := r.lowering.axisNorm
  (cacheSequenceIdx (r.node.mode.getD "linear" == "circular") (r.cache.shape.getD k 0)
    (startOf (if hasWriteIndices r.node then some r.writeIndices else none) (p.headD 0)) (p.getD k 0)).map fun j => p.set k j

def TensorScatterRun.target (r : TensorScatterRun α) (idx : NDArray Int) (p : List Nat) : Option (List Nat) :=
  let k := r.lowering.axisNorm
  (place (r.cache.shape.getD k 0) (readAt idx p)).map fun j => p.set k j

/-- The emitted nodes write each element of the update where the TensorScatter does, no two of them at one place. -/
def TensorScatterRun.Exact (r : TensorScatterRun α) : Prop :=
  ∃ idx, r.lowering.indices r.cache r.update r.writeIndices = some idx ∧
    (∀ p ∈ indices r.update.shape, (r.target idx p).isSome ∧ r.target idx p = r.place? p) ∧
    ((indices r.update.shape).map (r.target idx)).Nodup ∧
    scatterElements r.lowering.axis r.cache idx r.update = some r.out

section

variable {U : List Nat} {g h : List Nat → Int} {x y : NDArray Int}

/-- Repeated to the shape, the tensor holds the values. -/
structure Follows (U : List Nat) (g : List Nat → Int) (t : NDArray Int) : Prop where
  repeats : Repeats t.shape U
  reads : ∀ p ∈ indices U, readAt t (alignIndex t.shape p) = g p

theorem Follows.binary (hx : Follows U g x) (hy : Follows U h y) (f : Int → Int → Int) :
    ∃ z, IndexArrays.binary f x y = some z ∧ Follows U (fun p => f (g p) (h p)) z ∧ Repeats y.shape z.shape := by
  obtain ⟨s, hs, hxs, hys, hsU⟩ := Repeats.broadcast2 hx.repeats hy.repeats
  refine ⟨_, by rw [IndexArrays.binary, hs, map_some], ⟨hsU, ?_⟩, hys⟩
  intro p hp
  obtain ⟨hmem, hxalign⟩ := Repeats.align hxs hsU hp
  obtain ⟨-, hyalign⟩ := Repeats.align hys hsU hp
  show readAt (NDArray.ofFn s _) (alignIndex s p) = _
  rw [readAt_ofFn _ hmem, hxalign, hyalign, hx.reads p hp, hy.reads p hp]

theorem Follows.modulo (hx : Follows U g x) {m : Int} (hm : m = 0 → x.shape.prod = 0) :
    ∃ z, TensorScatters.modulo x (scalar m) = some z ∧ Follows U (fun p => (g p).fmod m) z := by
  have hbinary := binary_scalar Int.fmod x m
  refine ⟨NDArray.ofFn x.shape fun p => (readAt x p).fmod m, ?_, hx.repeats, ?_⟩
  · have hdefined : ¬ ((NDArray.ofFn x.shape fun p => (readAt x p).fmod m).data ≠ [] ∧ 0 ∈ (scalar m).data) := by
      rintro ⟨hne, hzero⟩
      have hempty := hm (mem_singleton.mp hzero).symm
      have hlen := (NDArray.ofFn x.shape fun p => (readAt x p).fmod m).length_data
      exact hne (length_eq_zero_iff.mp (hlen.trans hempty))
    rw [TensorScatters.modulo, hbinary, bind_some, if_neg hdefined]
  · intro p hp
    have hmem := (Repeats.align (repeats_refl x.shape) hx.repeats hp).1
    show readAt (NDArray.ofFn x.shape _) (alignIndex x.shape p) = _
    rw [readAt_ofFn _ hmem, hx.reads p hp]

omit [Inhabited α] in
theorem Follows.expand (hx : Follows U g x) {update : NDArray α} (hU : update.shape = U) :
    ∃ z, expandTo x (shapeOf update) = some z ∧ z.shape = U ∧ ∀ p ∈ indices U, readAt z p = g p := by
  have hdata : (shapeOf update).data = U.map (Nat.cast : Nat → Int) := by rw [← hU]; rfl
  have hnonneg : ∀ v ∈ (shapeOf update).data, 0 ≤ v := by
    intro v hv
    rw [hdata] at hv
    obtain ⟨n, -, rfl⟩ := List.mem_map.mp hv
    exact Int.natCast_nonneg n
  have hnat : (shapeOf update).data.map Int.toNat = U := by
    rw [hdata, List.map_map]
    exact (map_congr_left fun n _ => Int.toNat_natCast n).trans (List.map_id U)
  refine ⟨NDArray.ofFn U fun p => readAt x (alignIndex x.shape p), ?_, rfl, ?_⟩
  · rw [expandTo, if_pos hnonneg, hnat, Repeats.broadcast2_self hx.repeats, map_some]
  · intro p hp
    rw [readAt_ofFn _ hp, hx.reads p hp]

variable {a b : List Nat} {n : Nat} {v : List Int}

theorem offset_line {i : Nat} (hi : i < n) :
    offset (List.replicate a.length 1 ++ n :: List.replicate b.length 1)
      (List.replicate a.length 0 ++ i :: List.replicate b.length 0) = some i := by
  have hones : ∀ m, offset (List.replicate m 1) (List.replicate m 0) = some 0 := by
    intro m
    induction m with
    | zero => rfl
    | succ m ih =>
      rw [replicate_succ, replicate_succ, offset, if_pos Nat.one_pos, ih]
      simp
  induction a with
  | nil =>
    show offset (n :: List.replicate b.length 1) (i :: List.replicate b.length 0) = some i
    rw [offset, if_pos hi, hones]
    simp
  | cons k a ih =>
    rw [length_cons, replicate_succ, replicate_succ, cons_append, cons_append, offset,
      if_pos Nat.one_pos, ih]
    simp

theorem repeats_line : Repeats (List.replicate a.length 1 ++ n :: List.replicate b.length 1) (a ++ n :: b) :=
  rel_append (repeats_ones a) (.cons (.inl rfl) (repeats_ones b))

theorem align_line {p q : List Nat} {i : Nat} (hp : p ∈ indices a) (hi : i < n) (hq : q ∈ indices b) :
    alignIndex (List.replicate a.length 1 ++ n :: List.replicate b.length 1) (p ++ i :: q) =
      List.replicate a.length 0 ++ i :: List.replicate b.length 0 := by
  have hones : ∀ l : List Nat, List.zipWith (fun n i => if n = 1 then 0 else i) (List.replicate l.length 1) l =
      List.replicate l.length 0 := by
    intro l
    induction l with
    | nil => rfl
    | cons _ l ih => rw [length_cons, replicate_succ, zipWith_cons_cons, if_pos rfl, ih, replicate_succ]
  have hmid : (if n = 1 then 0 else i) = i := by
    split_ifs
    · omega
    · rfl
  have hlp := length_of_mem_indices hp
  have hlq := length_of_mem_indices hq
  have hlen : (List.replicate a.length 1).length = p.length := by rw [length_replicate, hlp]
  rw [alignIndex_repeats repeats_line (mid_mem_indices hp hi hq), zipWith_append hlen, zipWith_cons_cons, hmid,
    ← hlp, ← hlq, hones, hones]

theorem lineShape_eq (a b : List Nat) (n : Nat) : lineShape (a ++ n :: b).length a.length =
    vector (List.replicate a.length 1 ++ -1 :: List.replicate b.length 1) := by
  have hsplit : List.replicate (a ++ n :: b).length (1 : Int) =
      List.replicate a.length 1 ++ 1 :: List.replicate b.length 1 := by
    rw [length_append, length_cons, replicate_add, replicate_succ]
  rw [lineShape, hsplit]
  simp

theorem follows_line (hv : v.length = n) : ∃ y, reshape (vector v) (lineShape (a ++ n :: b).length a.length) = some y ∧
    Follows (a ++ n :: b) (fun p => v.getD (p.getD a.length 0) 0) y ∧
    y.shape = List.replicate a.length 1 ++ n :: List.replicate b.length 1 := by
  have hpos : ∀ m, ∀ w ∈ List.replicate m (1 : Int), 0 < w := by
    intro m w hw
    rw [eq_of_mem_replicate hw]
    exact one_pos
  have hnat : ∀ m, (List.replicate m (1 : Int)).map Int.toNat = List.replicate m 1 := by
    intro m
    rw [map_replicate]
    rfl
  have htarget : targetDims false (vector v).shape (lineShape (a ++ n :: b).length a.length).data =
      some (List.replicate a.length 1 ++ n :: List.replicate b.length 1) := by
    rw [lineShape_eq]
    refine (targetDims_inferred (hpos a.length) (hpos b.length) (d := n) ?_).trans (by rw [hnat, hnat])
    rw [hnat, hnat, shape_vector, hv]
    simp
  obtain ⟨y, hy, hshape, hdata⟩ := reshape_eq_some htarget (by rw [shape_vector, hv]; simp)
  refine ⟨y, hy, ⟨?_, ?_⟩, hshape⟩
  · rw [hshape]
    exact repeats_line
  · intro p hp
    obtain ⟨q, i, r, rfl, hq, hi, hr⟩ := exists_of_mem_indices_mid hp
    have hlen : i < v.length := hv ▸ hi
    have hplace : offset y.shape (alignIndex y.shape (q ++ i :: r)) = offset (vector v).shape [i] := by
      rw [hshape, align_line hq hi hr, offset_line hi, shape_vector, offset, if_pos hlen]
      simp [offset]
    rw [readAt_of_data hdata hplace, readAt_vector hlen, getD_mid i (length_of_mem_indices hq),
      getD_eq_getElem?_getD, getElem?_eq_getElem hlen, getD_some]

variable {pre post : List Nat} {k : Nat}

omit [Inhabited α] in
theorem gather_size {x : NDArray α} (hs : x.shape = pre ++ n :: post) (hk : pre.length = k) :
    gather 0 (shapeOf x) (scalar k) = some (scalar n) := by
  have hlen : k < (x.shape.map (Nat.cast : Nat → Int)).length := by
    rw [length_map, hs, length_append, length_cons, hk]
    omega
  obtain ⟨y, hy, hshape, hread⟩ := gather_entry hlen
  have hn : (x.shape.map (Nat.cast : Nat → Int))[k] = n := by
    subst hk
    simp [hs]
  have heq : y = scalar n := by
    apply ext_readAt (hshape.trans rfl)
    intro p hp
    rw [hshape] at hp
    obtain rfl := mem_singleton.mp hp
    rw [hread, hn, readAt_scalar]
  rw [← heq]
  exact hy

theorem eq_vector {w : NDArray Int} (h : w.shape = [n]) : w = vector w.data ∧ w.data.length = n := by
  have hlen : w.data.length = n := by rw [w.length_data, h, prod_singleton]
  refine ⟨?_, hlen⟩
  obtain ⟨shape, data, hdata⟩ := w
  dsimp only at h hlen
  subst h hlen
  rfl

def Lowering.sum (l : Lowering) (w : NDArray Int) (p : List Nat) : Int :=
  if l.write.isSome then wrap64 (readAt w [p.headD 0] + p.getD l.axisNorm 0) else p.getD l.axisNorm 0

variable {cache update : NDArray α} {w : NDArray Int} {l : Lowering} {batch seqLen maxSeq : Nat} {mid : List Nat}

omit [Inhabited α] in
theorem follows_sum (hk : (batch :: mid).length = l.axisNorm) (hrank : l.rank = (batch :: mid ++ seqLen :: post).length)
    (hw : l.write.isSome → w.shape = [batch]) :
    ∃ iota sum, reshape (vector ((List.range seqLen).map (Nat.cast : Nat → Int))) (lineShape l.rank l.axisNorm) =
        some iota ∧
      l.foldIn w iota = some sum ∧
      Follows (batch :: mid ++ seqLen :: post) (l.sum w) sum ∧ (seqLen = 0 → sum.shape.prod = 0) := by
  have hv : ((List.range seqLen).map (Nat.cast : Nat → Int)).length = seqLen := by simp
  obtain ⟨iota, hiota, hfollows, hshape⟩ := follows_line (a := batch :: mid) (b := post) hv
  have hempty : seqLen = 0 → iota.shape.prod = 0 := by
    rintro rfl
    rw [hshape]
    simp
  have hentry : ∀ p ∈ indices (batch :: mid ++ seqLen :: post),
      ((List.range seqLen).map (Nat.cast : Nat → Int)).getD (p.getD (batch :: mid).length 0) 0 =
        ((p.getD l.axisNorm 0 : Nat) : Int) := by
    intro p hp
    obtain ⟨q, i, r, rfl, hq, hi, hr⟩ := exists_of_mem_indices_mid hp
    have hlen := length_of_mem_indices hq
    rw [← hk, getD_mid i hlen]
    simp [hi]
  have hline : lineShape l.rank l.axisNorm = lineShape (batch :: mid ++ seqLen :: post).length (batch :: mid).length := by
    rw [hrank, ← hk]
  rw [hline]
  by_cases hwrite : l.write.isSome = true
  · obtain ⟨hvector, hdata⟩ := eq_vector (hw hwrite)
    obtain ⟨wi, hwi, hwfollows, -⟩ := follows_line (a := []) (b := mid ++ seqLen :: post) hdata
    obtain ⟨sum, hsum, hsumfollows, hrepeats⟩ := Follows.binary (U := batch :: mid ++ seqLen :: post) hwfollows hfollows
      (fun a b => wrap64 (a + b))
    rw [← hvector] at hwi
    refine ⟨iota, sum, hiota, ?_, ⟨hsumfollows.repeats, ?_⟩, ?_⟩
    · have hwi' : reshape w (lineShape (batch :: mid ++ seqLen :: post).length 0) = some wi := hwi
      rw [Lowering.foldIn, hrank, if_pos hwrite, hwi', bind_some]
      exact hsum
    · intro p hp
      rw [hsumfollows.reads p hp, Lowering.sum, if_pos hwrite, hentry p hp]
      obtain ⟨i, rest, rfl, hi, -⟩ := exists_of_mem_indices_cons hp
      have hread : readAt w [i] = w.data.getD i 0 := by
        have hlen : i < w.data.length := hdata ▸ hi
        rw [hvector, readAt_vector hlen, ← hvector]
        simp [hlen]
      show wrap64 (w.data.getD i 0 + _) = wrap64 (readAt w [i] + _)
      rw [hread]
    · intro hzero
      have hdvd := Repeats.prod_dvd hrepeats
      rw [hempty hzero] at hdvd
      exact zero_dvd_iff.mp hdvd
  · refine ⟨iota, iota, hiota, if_neg hwrite, ⟨hfollows.repeats, ?_⟩, hempty⟩
    intro p hp
    rw [hfollows.reads p hp, hentry p hp, Lowering.sum, if_neg hwrite]

omit [Inhabited α] in
theorem indices_spec (hcache : cache.shape = batch :: mid ++ maxSeq :: post)
    (hupdate : update.shape = batch :: mid ++ seqLen :: post) (hk : (batch :: mid).length = l.axisNorm)
    (hrank : l.rank = cache.shape.length) (hle : seqLen ≤ maxSeq) (hw : l.write.isSome → w.shape = [batch]) :
    ∃ idx, l.indices cache update w = some idx ∧ idx.shape = update.shape ∧
      ∀ p ∈ indices update.shape, readAt idx p = if l.circular then (l.sum w p).fmod maxSeq else l.sum w p := by
  have hrank' : l.rank = (batch :: mid ++ seqLen :: post).length := by
    rw [hrank, hcache, length_append, length_append, length_cons, length_cons, length_cons]
  obtain ⟨iota, sum, hiota, hsum, hfollows, hempty⟩ := follows_sum hk hrank' hw
  have hseq := gather_size hupdate hk
  have hmax := gather_size hcache hk
  have hrange := rangeOf_spec (t := scalar seqLen) rfl
  rw [readAt_scalar, Int.toNat_natCast] at hrange
  have hwrapped : ∃ wrapped, l.wrapAround cache sum = some wrapped ∧
      Follows (batch :: mid ++ seqLen :: post)
        (fun p => if l.circular then (l.sum w p).fmod maxSeq else l.sum w p) wrapped := by
    by_cases hcircular : l.circular = true
    · obtain ⟨wrapped, hwrapped, hwfollows⟩ := hfollows.modulo (m := (maxSeq : Int)) (by
        intro hzero
        exact hempty (by omega))
      refine ⟨wrapped, by rw [Lowering.wrapAround, if_pos hcircular, hmax, bind_some, hwrapped], hwfollows.repeats, ?_⟩
      intro p hp
      rw [if_pos hcircular]
      exact hwfollows.reads p hp
    · refine ⟨sum, if_neg hcircular, hfollows.repeats, ?_⟩
      intro p hp
      rw [if_neg hcircular]
      exact hfollows.reads p hp
  obtain ⟨wrapped, hwrapped, hwfollows⟩ := hwrapped
  obtain ⟨idx, hidx, hshape, hreads⟩ := hwfollows.expand hupdate
  refine ⟨idx, ?_, hshape.trans hupdate.symm, ?_⟩
  · simp only [Lowering.indices, bind_eq_bind, hseq, bind_some, hrange, hiota, hsum, hwrapped, hidx]
  · rw [hupdate]
    exact hreads

variable {out : NDArray α}

def iterate (k : Nat) (update : NDArray α) (f : List Nat × Nat → Option Nat) (present : NDArray α) (pi : List Nat × Nat) :
    Option (NDArray α) :=
  (f pi).map fun j => writeSlice k update present pi.1 pi.2 j

theorem take_mid {a c : List Nat} (j : Nat) (h : a.length = k) : (a ++ j :: c).take (k + 1) = a ++ [j] := by
  subst h
  rw [take_append, take_of_length_le (Nat.le_succ _), Nat.add_sub_cancel_left]
  rfl

variable {f : List Nat × Nat → Option Nat} {L : List (List Nat × Nat)}

theorem loop_defined (h : L.foldlM (iterate k update f) cache = some out) :
    out.shape = cache.shape ∧ ∀ pi ∈ L, (f pi).isSome := by
  induction L generalizing cache with
  | nil =>
    obtain rfl := Option.some.inj h
    exact ⟨rfl, fun pi hpi => absurd hpi not_mem_nil⟩
  | cons pi L ih =>
    rw [foldlM_cons] at h
    obtain ⟨present, hpresent, hrest⟩ := bind_eq_some_iff.mp h
    obtain ⟨j, hj, rfl⟩ := map_eq_some_iff.mp hpresent
    obtain ⟨hshape, hsome⟩ := ih hrest
    refine ⟨hshape, ?_⟩
    intro pi' hpi'
    obtain rfl | hmem := mem_cons.mp hpi'
    · rw [hj]
      rfl
    · exact hsome pi' hmem

/-- After the loop an element is that of the cache, or the one that the iteration with its place writes there. -/
theorem readAt_loop {a c : List Nat} {j : Nat} (hk : a.length = k) (hL : ∀ pi ∈ L, pi.1.length = k)
    (h : L.foldlM (iterate k update f) cache = some out) (hq : a ++ j :: c ∈ indices cache.shape)
    (hone : ∀ i i', (a, i) ∈ L → (a, i') ∈ L → f (a, i) = some j → f (a, i') = some j → i = i') :
    (∀ i, (a, i) ∈ L → f (a, i) = some j → readAt out (a ++ j :: c) = readAt update (a ++ i :: c)) ∧
      ((∀ i, (a, i) ∈ L → f (a, i) ≠ some j) → readAt out (a ++ j :: c) = readAt cache (a ++ j :: c)) := by
  induction L generalizing cache with
  | nil =>
    obtain rfl := Option.some.inj h
    exact ⟨fun i hi => absurd hi not_mem_nil, fun _ => rfl⟩
  | cons pi L ih =>
    rw [foldlM_cons] at h
    obtain ⟨present, hpresent, hrest⟩ := bind_eq_some_iff.mp h
    obtain ⟨j', hj', rfl⟩ := map_eq_some_iff.mp hpresent
    obtain ⟨p, i₀⟩ := pi
    have hp : p.length = k := hL (p, i₀) mem_cons_self
    obtain ⟨hhit, hmiss⟩ := ih (fun pi hpi => hL pi (mem_cons_of_mem _ hpi)) hrest hq
      (fun i i' hi hi' => hone i i' (mem_cons_of_mem _ hi) (mem_cons_of_mem _ hi'))
    have hread : readAt (writeSlice k update cache p i₀ j') (a ++ j :: c) =
        if a = p ∧ j = j' then readAt update (a ++ i₀ :: c) else readAt cache (a ++ j :: c) := by
      rw [writeSlice, readAt_ofFn _ hq, take_mid j hk, set_mid j i₀ hk]
      have hsame : (a ++ [j] = p ++ [j']) ↔ (a = p ∧ j = j') := by
        constructor
        · intro heq
          obtain ⟨hap, hjj⟩ := append_inj heq (hk.trans hp.symm)
          exact ⟨hap, head_eq_of_cons_eq hjj⟩
        · rintro ⟨rfl, rfl⟩
          rfl
      simp only [hsame]
    refine ⟨?_, ?_⟩
    · intro i hi hfi
      by_cases hlater : ∃ i', (a, i') ∈ L ∧ f (a, i') = some j
      · obtain ⟨i', hi', hfi'⟩ := hlater
        obtain rfl := hone i i' hi (mem_cons_of_mem _ hi') hfi hfi'
        exact hhit i hi' hfi
      · have hhere : (a, i) = (p, i₀) := (mem_cons.mp hi).resolve_right fun hmem => hlater ⟨i, hmem, hfi⟩
        obtain ⟨rfl, rfl⟩ := Prod.mk.inj hhere
        have hjj : j = j' := Option.some.inj (hfi.symm.trans hj')
        rw [hmiss fun i' hi' hfi' => hlater ⟨i', hi', hfi'⟩, hread, if_pos ⟨rfl, hjj⟩]
    · intro hnone
      rw [hmiss fun i hi => hnone i (mem_cons_of_mem _ hi), hread, if_neg]
      rintro ⟨rfl, rfl⟩
      exact hnone i₀ mem_cons_self hj'

variable {i i' j : Nat} {circular : Bool} {start : Int}

theorem place_dvd {n : Nat} {v : Int} (h : place n v = some j) : (n : Int) ∣ v - j := by
  obtain ⟨-, rfl | rfl⟩ := place_eq_some.mp h
  · simp
  · exact ⟨-1, by ring⟩

theorem cacheSequenceIdx_dvd (h : cacheSequenceIdx circular maxSeq start i = some j) :
    Fits (start + i) ∧ (maxSeq : Int) ∣ start + i - j := by
  unfold cacheSequenceIdx at h
  split_ifs at h with hfits hcircular
  · refine ⟨hfits, ?_⟩
    have hdvd := place_dvd h
    have hmod : (maxSeq : Int) ∣ (start + i) - (start + i).fmod maxSeq := by
      rw [Int.fmod_def]
      exact ⟨(start + i).fdiv maxSeq, by ring⟩
    have hsum := dvd_add hmod hdvd
    rwa [sub_add_sub_cancel] at hsum
  · exact ⟨hfits, place_dvd h⟩

theorem cacheSequenceIdx_inj (hle : seqLen ≤ maxSeq) (hi : i < seqLen) (hi' : i' < seqLen)
    (h : cacheSequenceIdx circular maxSeq start i = some j) (h' : cacheSequenceIdx circular maxSeq start i' = some j) :
    i = i' := by
  have hdvd : (maxSeq : Int) ∣ (i : Int) - i' := by
    have hsub := dvd_sub (cacheSequenceIdx_dvd h).2 (cacheSequenceIdx_dvd h').2
    have heq : start + i - j - (start + i' - j) = (i : Int) - i' := by ring
    rwa [heq] at hsub
  have hzero : (i : Int) - i' = 0 := Int.eq_zero_of_abs_lt_dvd hdvd (by
    rw [abs_lt]
    omega)
  omega

theorem cacheSequenceIdx_lt (h : cacheSequenceIdx circular maxSeq start i = some j) : j < maxSeq := by
  unfold cacheSequenceIdx at h
  split_ifs at h
  · exact place_lt h
  · exact place_lt h

theorem normalizeAxis_place {axis : Int} {r k : Nat} (h : place r axis = some k) (hk : k ≠ 0) :
    normalizeAxis axis r = some (k : Int) := by
  obtain ⟨hlt, rfl | rfl⟩ := place_eq_some.mp h
  · have hmod : (k : Int).tmod r = k := Int.tmod_eq_of_lt (by omega) (by omega)
    have hnonneg : ¬ (k : Int) < 0 := by omega
    have hrange : ¬ ((k : Int) ≤ 0 ∨ (r : Int) ≤ k) := by omega
    simp only [normalizeAxis, hmod, if_neg hnonneg, if_neg hrange]
  · have hmod : ((k : Int) - r).tmod r = k - r := by
      have hneg : ((k : Int) - r) = -((r : Int) - k) := by ring
      rw [hneg, Int.neg_tmod, Int.tmod_eq_of_lt (by omega) (by omega)]
    have hneg : (k : Int) - r < 0 := by omega
    have hrange : ¬ ((k : Int) ≤ 0 ∨ (r : Int) ≤ k) := by omega
    simp only [normalizeAxis, hmod, if_pos hneg, sub_add_cancel, if_neg hrange]

end

variable {r : TensorScatterRun α} {batch maxSeq seqLen : Nat} {mid post : List Nat}

/-- The place in the cache along the axis that an iteration of the loop writes to. -/
def TensorScatterRun.written (r : TensorScatterRun α) (maxSeq : Nat) (pi : List Nat × Nat) : Option Nat :=
  cacheSequenceIdx (r.node.mode.getD "linear" == "circular") maxSeq
    (startOf (if hasWriteIndices r.node then some r.writeIndices else none) (pi.1.headD 0)) pi.2

/-- The operands of a TensorScatter that is valid, seen from the axis. -/
structure Layout (r : TensorScatterRun α) (batch : Nat) (mid : List Nat) (maxSeq seqLen : Nat) (post : List Nat) : Prop where
  cacheShape : r.cache.shape = batch :: mid ++ maxSeq :: post
  updateShape : r.update.shape = batch :: mid ++ seqLen :: post
  axisNorm : (batch :: mid).length = r.lowering.axisNorm
  rank : r.lowering.rank = r.cache.shape.length
  write : r.lowering.write.isSome = hasWriteIndices r.node
  circular : r.lowering.circular = (r.node.mode.getD "linear" == "circular")
  axis : place r.cache.shape.length r.lowering.axis = some r.lowering.axisNorm
  le : seqLen ≤ maxSeq
  starts : hasWriteIndices r.node → r.writeIndices.shape = [batch]
  loop : (indices (batch :: mid) ×ˢ List.range seqLen).foldlM
    (iterate r.lowering.axisNorm r.update (r.written maxSeq)) r.cache = some r.out

theorem exists_layout (r : TensorScatterRun α) : ∃ batch mid maxSeq seqLen post, Layout r batch mid maxSeq seqLen post := by
  have hfires := r.fires
  unfold rewriteTensorScatterToScatterElements at hfires
  split_ifs at hfires with hmatch
  have hrank : (r.node.cacheSizes.getD []).length = r.cache.shape.length := by
    cases hcache : r.node.cacheSizes with
    | none => simp [patternMatchPredicate, hcache] at hmatch
    | some cache => exact (r.cacheHolds cache hcache).length_eq
  obtain ⟨k, hk, hvalid⟩ := bind_eq_some_iff.mp r.valid
  obtain ⟨⟨hk0, hshape, hle, hstarts⟩, hvalid⟩ := ite_none_right_eq_some.mp hvalid
  unfold runTransform at hfires
  dsimp only at hfires
  rw [hrank, normalizeAxis_place hk hk0, map_some, Option.some.injEq] at hfires
  obtain ⟨pre, maxSeq, post, hcache, hpre⟩ := exists_mid (place_lt hk)
  obtain ⟨batch, mid, rfl⟩ : ∃ batch mid, pre = batch :: mid := by
    cases pre with
    | nil => exact absurd hpre.symm hk0
    | cons batch mid => exact ⟨batch, mid, rfl⟩
  have hmax : r.cache.shape.getD k 0 = maxSeq := by rw [hcache, getD_mid _ hpre]
  have htake : r.cache.shape.take k = batch :: mid := by rw [hcache, ← hpre, take_left]
  have hhead : r.cache.shape.headD 0 = batch := by rw [hcache]; rfl
  rw [hcache, set_mid _ _ hpre] at hshape
  rw [hmax] at hle hvalid
  rw [htake] at hvalid
  have hnorm : r.lowering.axisNorm = k := by rw [← hfires]; exact Int.toNat_natCast k
  refine ⟨batch, mid, maxSeq, r.update.shape.getD k 0, post, hcache, hshape, by rw [hnorm, hpre], by rw [← hfires], ?_,
    by rw [← hfires], ?_, hle, ?_, ?_⟩
  · rw [← hfires]
    unfold hasWriteIndices
    cases r.node.third with
    | undefined => rfl
    | given elemType sizes =>
      by_cases hthree : r.node.inputs = 3
      · simp [hthree]
      · simp [hthree]
  · rw [hnorm, ← hfires]
    exact hk
  · intro hhas
    rw [← hhead]
    exact hstarts r.writeIndices (by rw [if_pos hhas]; rfl)
  · rw [hnorm]
    exact hvalid

variable (h : Layout r batch mid maxSeq seqLen post)

include h

theorem Layout.sum_eq {a c : List Nat} {i : Nat} (ha : a ∈ indices (batch :: mid)) {start : Int}
    (hstart : start = startOf (if hasWriteIndices r.node then some r.writeIndices else none) (a.headD 0))
    (hfits : Fits (start + i)) : r.lowering.sum r.writeIndices (a ++ i :: c) = start + i := by
  have hlen : a.length = r.lowering.axisNorm := (length_of_mem_indices ha).trans h.axisNorm
  obtain ⟨b, rest, rfl, -, -⟩ := exists_of_mem_indices_cons ha
  unfold Lowering.sum
  rw [h.write, getD_mid i hlen]
  by_cases hhas : hasWriteIndices r.node = true
  · rw [if_pos hhas] at hstart
    have hread : readAt r.writeIndices [((b :: rest) ++ i :: c).headD 0] = start := hstart.symm
    rw [if_pos hhas, hread, wrap64_of_fits hfits]
  · rw [if_neg hhas] at hstart
    have hzero : start = 0 := hstart
    rw [if_neg hhas, hzero, zero_add]

/-- The index that is emitted for an element of the update counts to the place that the loop writes it to. -/
theorem Layout.exists_indices :
    ∃ idx, r.lowering.indices r.cache r.update r.writeIndices = some idx ∧ idx.shape = r.update.shape ∧
      ∀ a ∈ indices (batch :: mid), ∀ i < seqLen, ∀ c ∈ indices post, ∃ j, r.written maxSeq (a, i) = some j ∧
        place maxSeq (readAt idx (a ++ i :: c)) = some j := by
  have hw : r.lowering.write.isSome → r.writeIndices.shape = [batch] := by
    rw [h.write]
    exact h.starts
  obtain ⟨idx, hidx, hshape, hreads⟩ := indices_spec h.cacheShape h.updateShape h.axisNorm h.rank h.le hw
  refine ⟨idx, hidx, hshape, ?_⟩
  intro a ha i hi c hc
  have hmem : (a, i) ∈ indices (batch :: mid) ×ˢ List.range seqLen :=
    pair_mem_product.mpr ⟨ha, mem_range.mpr hi⟩
  obtain ⟨j, hj⟩ := isSome_iff_exists.mp ((loop_defined h.loop).2 (a, i) hmem)
  have hfits := (cacheSequenceIdx_dvd hj).1
  have hp : a ++ i :: c ∈ indices r.update.shape := by
    rw [h.updateShape]
    exact mid_mem_indices ha hi hc
  refine ⟨j, hj, ?_⟩
  rw [hreads _ hp, h.sum_eq ha rfl hfits, h.circular]
  unfold TensorScatterRun.written cacheSequenceIdx at hj
  rw [if_pos hfits] at hj
  exact hj

theorem Layout.axis_eq {a : List Nat} (i : Nat) (c : List Nat) (ha : a ∈ indices (batch :: mid)) :
    a.length = r.lowering.axisNorm ∧ r.cache.shape.getD r.lowering.axisNorm 0 = maxSeq ∧
      (fun j => (a ++ i :: c).set r.lowering.axisNorm j) = fun j => a ++ j :: c := by
  have hlen := (length_of_mem_indices ha).trans h.axisNorm
  exact ⟨hlen, by rw [h.cacheShape, getD_mid _ h.axisNorm], funext fun j => set_mid i j hlen⟩

theorem Layout.place?_eq {a c : List Nat} {i : Nat} (ha : a ∈ indices (batch :: mid)) :
    r.place? (a ++ i :: c) = (r.written maxSeq (a, i)).map fun j => a ++ j :: c := by
  obtain ⟨hlen, hmax, hset⟩ := h.axis_eq i c ha
  have hhead : (a ++ i :: c).headD 0 = a.headD 0 := by
    obtain ⟨b, rest, rfl, -, -⟩ := exists_of_mem_indices_cons ha
    rfl
  unfold TensorScatterRun.place? TensorScatterRun.written
  dsimp only
  rw [hmax, getD_mid i hlen, hset, hhead]

theorem Layout.target_eq (idx : NDArray Int) {a c : List Nat} {i : Nat} (ha : a ∈ indices (batch :: mid)) :
    r.target idx (a ++ i :: c) = (place maxSeq (readAt idx (a ++ i :: c))).map fun j => a ++ j :: c := by
  obtain ⟨hlen, hmax, hset⟩ := h.axis_eq i c ha
  unfold TensorScatterRun.target
  dsimp only
  rw [hmax, hset]

omit h

variable {idx : NDArray Int} (h : Layout r batch mid maxSeq seqLen post)
  (hreads : ∀ a ∈ indices (batch :: mid), ∀ i < seqLen, ∀ c ∈ indices post, ∃ j, r.written maxSeq (a, i) = some j ∧ place maxSeq (readAt idx (a ++ i :: c)) = some j)

include h hreads

theorem Layout.target_inj {p p' : List Nat} (hp : p ∈ indices r.update.shape) (hp' : p' ∈ indices r.update.shape)
    (heq : r.target idx p = r.target idx p') : p = p' := by
  rw [h.updateShape] at hp hp'
  obtain ⟨a, i, c, rfl, ha, hi, hc⟩ := exists_of_mem_indices_mid hp
  obtain ⟨a', i', c', rfl, ha', hi', hc'⟩ := exists_of_mem_indices_mid hp'
  obtain ⟨j, hj, hplace⟩ := hreads a ha i hi c hc
  obtain ⟨j', hj', hplace'⟩ := hreads a' ha' i' hi' c' hc'
  rw [h.target_eq idx ha, h.target_eq idx ha', hplace, hplace', map_some, map_some, Option.some.injEq] at heq
  have hlen : a.length = a'.length := (length_of_mem_indices ha).trans (length_of_mem_indices ha').symm
  obtain ⟨rfl, hrest⟩ := append_inj heq hlen
  obtain ⟨rfl, rfl⟩ := List.cons.inj hrest
  rw [cacheSequenceIdx_inj h.le hi hi' hj hj']

theorem Layout.scatter_eq (hnodup : ((indices r.update.shape).map (r.target idx)).Nodup) :
    scatter r.cache r.update (r.target idx) = some r.out := by
  have hrange : ∀ p ∈ indices r.update.shape, ∃ q ∈ indices r.cache.shape, r.target idx p = some q := by
    intro p hp
    rw [h.updateShape] at hp
    obtain ⟨a, i, c, rfl, ha, hi, hc⟩ := exists_of_mem_indices_mid hp
    obtain ⟨j, hj, hplace⟩ := hreads a ha i hi c hc
    refine ⟨a ++ j :: c, ?_, by rw [h.target_eq idx ha, hplace, map_some]⟩
    rw [h.cacheShape]
    exact mid_mem_indices ha (cacheSequenceIdx_lt hj) hc
  rw [scatter, if_pos ⟨hrange, hnodup⟩]
  apply congrArg some
  refine ext_readAt (x := NDArray.ofFn r.cache.shape _) (loop_defined h.loop).1.symm ?_
  intro q hq
  have hqcache : q ∈ indices r.cache.shape := hq
  have hqmid := hqcache
  rw [h.cacheShape] at hqmid
  obtain ⟨a, j, c, rfl, ha, hj, hc⟩ := exists_of_mem_indices_mid hqmid
  have hlen : a.length = r.lowering.axisNorm := (length_of_mem_indices ha).trans h.axisNorm
  have hprefixes : ∀ pi ∈ indices (batch :: mid) ×ˢ List.range seqLen, pi.1.length = r.lowering.axisNorm := by
    intro pi hpi
    exact (length_of_mem_indices (mem_product.mp hpi).1).trans h.axisNorm
  obtain ⟨hhit, hmiss⟩ := readAt_loop hlen hprefixes h.loop hqcache (by
    intro i i' hi hi' hw hw'
    exact cacheSequenceIdx_inj h.le (mem_range.mp (pair_mem_product.mp hi).2)
      (mem_range.mp (pair_mem_product.mp hi').2) hw hw')
  rw [readAt_ofFn _ hqcache]
  cases hfind : (indices r.update.shape).find? fun p => r.target idx p == some (a ++ j :: c) with
  | some p =>
    have hp := mem_of_find?_eq_some hfind
    have htarget : r.target idx p = some (a ++ j :: c) := by simpa using find?_some hfind
    rw [h.updateShape] at hp
    obtain ⟨a', i, c', rfl, ha', hi, hc'⟩ := exists_of_mem_indices_mid hp
    obtain ⟨j', hj', hplace⟩ := hreads a' ha' i hi c' hc'
    rw [h.target_eq idx ha', hplace, map_some, Option.some.injEq] at htarget
    obtain ⟨rfl, hrest⟩ := append_inj htarget ((length_of_mem_indices ha').trans (length_of_mem_indices ha).symm)
    obtain ⟨rfl, rfl⟩ := List.cons.inj hrest
    rw [map_some, getD_some]
    exact (hhit i (pair_mem_product.mpr ⟨ha, mem_range.mpr hi⟩) hj').symm
  | none =>
    rw [map_none, getD_none]
    refine (hmiss ?_).symm
    intro i hi hw
    obtain ⟨-, hi⟩ := pair_mem_product.mp hi
    have hlt := mem_range.mp hi
    obtain ⟨j', hj', hplace⟩ := hreads a ha i hlt c hc
    obtain rfl : j' = j := Option.some.inj (hj'.symm.trans hw)
    have hp : a ++ i :: c ∈ indices r.update.shape := by
      rw [h.updateShape]
      exact mid_mem_indices ha hlt hc
    have hno := find?_eq_none.mp hfind _ hp
    rw [h.target_eq idx ha, hplace, map_some] at hno
    exact hno (beq_self_eq_true _)

omit h hreads

/-- The lowering of a TensorScatter is exact. -/
theorem tensorScatter_rewrite_exact (r : TensorScatterRun α) : r.Exact := by
  obtain ⟨batch, mid, maxSeq, seqLen, post, h⟩ := exists_layout r
  obtain ⟨idx, hidx, hshape, hreads⟩ := h.exists_indices
  have hnodup : ((indices r.update.shape).map (r.target idx)).Nodup :=
    (nodup_indices _).map_on fun p hp p' hp' => h.target_inj hreads hp hp'
  refine ⟨idx, hidx, ?_, hnodup, ?_⟩
  · intro p hp
    rw [h.updateShape] at hp
    obtain ⟨a, i, c, rfl, ha, hi, hc⟩ := exists_of_mem_indices_mid hp
    obtain ⟨j, hj, hplace⟩ := hreads a ha i hi c hc
    rw [h.target_eq idx ha, h.place?_eq ha, hj, hplace]
    exact ⟨rfl, rfl⟩
  · have hlen : r.update.shape.length = r.cache.shape.length := by
      rw [h.updateShape, h.cacheShape, length_append, length_append, length_cons (a := seqLen),
        length_cons (a := maxSeq)]
    rw [scatterElements, h.axis, bind_some, if_pos ⟨hshape, hlen⟩]
    exact h.scatter_eq hreads hnodup

/-- Two sequences are written in circular mode, the first across the end of its cache. -/
theorem circular_sequences_scattered :
    ∃ r : TensorScatterRun Int, r.cache = ⟨[2, 3], [1, 2, 3, 4, 5, 6], rfl⟩ ∧ r.update = ⟨[2, 2], [7, 8, 9, 0], rfl⟩ ∧
      r.writeIndices = ⟨[2], [5, -3], rfl⟩ ∧ r.out = ⟨[2, 3], [8, 2, 7, 9, 0, 6], rfl⟩ ∧ r.Exact :=
  ⟨⟨⟨none, 3, 1, some [.param "batch", .size 3], some [.param "batch", .unknown], .given .int64 (some [.param "batch"]),
    some "circular", some (-1)⟩, ⟨2, 1, some false, true, -1⟩, by decide, fun _ => 2,
    ⟨[2, 3], [1, 2, 3, 4, 5, 6], rfl⟩, ⟨[2, 2], [7, 8, 9, 0], rfl⟩, ⟨[2], [5, -3], rfl⟩,
    conforms_some (.cons (fun _ => rfl) (.cons rfl .nil)), conforms_some (.cons (fun _ => rfl) (.cons trivial .nil)),
    ⟨[2, 3], [8, 2, 7, 9, 0, 6], rfl⟩, by decide⟩, rfl, rfl, rfl, rfl, tensorScatter_rewrite_exact _⟩

end Onnxsim.Passes.TensorScatters
