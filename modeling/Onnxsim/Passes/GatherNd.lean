import Onnxsim.Passes.ConstantViews
import Onnxsim.Passes.IndexArrays

namespace Onnxsim.Passes.GatherNd

open List Option Lib.Progressions
open Overflow.Arrays PartialShape.Reshaping
open ConstantGathers (offset_append vector)
open ConstantViews (wrap64_eq_iff wrap64_wrap64_mul)
open Gathers IndexArrays Views
open ShapeSlices (wrap64)
open Reduce.Axes (ofFn_congr)
open Reduce.Fusion (Dimension)

variable {α : Type} [Inhabited α]

/-- A GatherND with the numbers of its operands and results, and what is recorded of the two operands. -/
structure GatherNdNode where
  domain : Option String
  inputs : Nat
  outputs : Nat
  batchDims : Option Int
  opset : Int
  dataSizes : Option (List Dimension)
  indicesSizes : Option (List Dimension)

/-- What the rewrite reads off an accepted node. -/
structure Plan where
  b : Nat
  k : Nat
  r : Nat
  q : Nat
  dims : List Int
deriving DecidableEq

def patternMatchPredicate (node : GatherNdNode) : Option Plan :=
  if node.domain.getD "" ≠ "" then none
  else if node.inputs ≠ 2 ∨ node.outputs ≠ 1 then none
  else
    node.indicesSizes.bind fun indices => (indices.getLast?.bind knownSize).bind fun k =>
      if k < 1 then none
      else
        node.dataSizes.bind fun data =>
          let b := node.batchDims.getD 0
          if b < 0 ∨ data.length < b + k ∨ (indices.length : Int) < b + 1 then none
          else
            (((data.drop b.toNat).take k.toNat).mapM knownSize).bind fun dims =>
              if node.opset = 0 ∨ 11 ≤ node.opset then some ⟨b.toNat, k.toNat, data.length, indices.length, dims⟩
              else none

/-- The row-major strides of the columns, the loop over which runs backwards. -/
def mults : List Int → List Int
  | [] => []
  | [_] => [1]
  | _ :: d :: dims => wrap64 ((mults (d :: dims)).headD 1 * d) :: mults (d :: dims)

def product (dims : List Int) : Int := dims.foldl (fun D d => wrap64 (D * d)) 1

def normalizeIndex (idx : NDArray Int) (dim : Int) : Option (NDArray Int) := do
  let isNeg ← less idx (scalar 0)
  let shifted ← add idx (scalar dim)
  choose isNeg shifted idx

def scale (norm : NDArray Int) (mult : Int) : Option (NDArray Int) :=
  if mult = 1 then some norm else mul norm (scalar mult)

/-- The loop over the columns, from column `j` on. -/
def combineLoop (indices : NDArray Int) : Nat → List (Int × Int) → Option (NDArray Int) → Option (Option (NDArray Int))
  | _, [], combined => some combined
  | j, (dim, mult) :: rest, combined => do
    let idxJ ← gather (-1) indices (scalar j)
    let norm ← normalizeIndex idxJ dim
    let term ← scale norm mult
    match combined with
    | none => combineLoop indices (j + 1) rest (some term)
    | some sum => do
      let sum ← add sum term
      combineLoop indices (j + 1) rest (some sum)

/-- The number of batches, as the product of entries `i, i + 1, …` of the shape. -/
def batchLoop (shape : NDArray Int) : Nat → Nat → Option (NDArray Int) → Option (Option (NDArray Int))
  | _, 0, total => some total
  | i, left + 1, total => do
    let d ← gather 0 shape (scalar i)
    match total with
    | none => batchLoop shape (i + 1) left (some d)
    | some total => do
      let total ← mul total d
      batchLoop shape (i + 1) left (some total)

def flattenData (p : Plan) (data : NDArray α) : Option (NDArray α) :=
  if p.b + p.k = p.r then reshape data (vector [-1])
  else do
    let tail ← sliceVector (shapeOf data) (p.b + p.k) p.r
    let target ← concatVectors (vector [-1]) tail
    reshape data target

/-- The offset of each batch, to be added to the combined columns; `m` axes follow those of the batches. -/
def batchOffset (p : Plan) (m : Nat) (shape : NDArray Int) : Option (NDArray Int) := do
  let head ← sliceVector shape 0 p.b
  let total ← (← batchLoop shape 0 p.b none)
  let range ← rangeOf (scalar 0) total (scalar 1)
  let flat ← reshape range head
  let offset ← mul flat (scalar (product p.dims))
  if 0 < m then do
    let target ← concatVectors head (vector (List.replicate m 1))
    reshape offset target
  else some offset

/-- The nodes that take the place of the GatherND, run on its operands. -/
def runTransform (p : Plan) (data : NDArray α) (indices : NDArray Int) : Option (NDArray α) := do
  let flat ← flattenData p data
  let combined ← (← combineLoop indices 0 (p.dims.zip (mults p.dims)) none)
  if 0 < p.b then do
    let offset ← batchOffset p (p.q - p.b - 1) (shapeOf data)
    let flatIndices ← add combined offset
    gather 0 flat flatIndices
  else gather 0 flat combined

/-- The positions that an index tuple names, counted from the end where it is negative. -/
def placeAll : List Nat → List Int → Option (List Nat)
  | [], [] => some []
  | n :: ns, i :: is => (place n i).bind fun a => (placeAll ns is).map fun rest => a :: rest
  | _, _ => none

def tuple (idx : NDArray Int) (k : Nat) (q : List Nat) : List Int := (List.range k).map fun j => readAt idx (q ++ [j])

/-- ONNX's GatherND: each tuple names a slice of the data, below the batch dimensions that are shared. -/
def gatherNd (b : Nat) (data : NDArray α) (idx : NDArray Int) : Option (NDArray α) :=
  idx.shape.getLast?.bind fun k =>
    let lead := idx.shape.dropLast
    let dims := (data.shape.drop b).take k
    if 1 ≤ k ∧ b + k ≤ data.shape.length ∧ b ≤ lead.length ∧ data.shape.take b = lead.take b ∧
        ∀ q ∈ indices lead, (placeAll dims (tuple idx k q)).isSome then
      some (NDArray.ofFn (lead ++ data.shape.drop (b + k)) fun p =>
        readAt data ((p.take lead.length).take b ++
          ((placeAll dims (tuple idx k (p.take lead.length))).getD [] ++ p.drop lead.length)))
    else none

/-- A GatherND that is rewritten, on operands that it is valid on and that conform to the record. -/
structure GatherNdRun (α : Type) [Inhabited α] where
  node : GatherNdNode
  plan : Plan
  accepted : patternMatchPredicate node = some plan
  data : NDArray α
  indices : NDArray Int
  fits : ∀ n ∈ data.shape, n < 2 ^ 63
  held : data.shape.prod < 2 ^ 63
  dataRecorded : Recorded node.dataSizes data.shape
  indicesRecorded : Recorded node.indicesSizes indices.shape
  out : NDArray α
  valid : gatherNd (node.batchDims.getD 0).toNat data indices = some out

def GatherNdRun.Exact (r : GatherNdRun α) : Prop := runTransform r.plan r.data r.indices = some r.out

/-- The sizes that end up in the target of a Reshape: those of the trailing axes and of all batch axes but the first. -/
def GatherNdRun.respelled (r : GatherNdRun α) : List Nat :=
  (r.data.shape.take r.plan.b).drop 1 ++ r.data.shape.drop (r.plan.b + r.plan.k)

variable {ns ps : List Nat} {is : List Int}

theorem mem_indices_of_placeAll (h : placeAll ns is = some ps) : ps ∈ indices ns := by
  induction ns generalizing is ps with
  | nil =>
    cases is with
    | nil =>
      obtain rfl := Option.some.inj h
      exact mem_singleton.mpr rfl
    | cons i is => cases h
  | cons n ns ih =>
    cases is with
    | nil => cases h
    | cons i is =>
      obtain ⟨a, ha, hrest⟩ := bind_eq_some_iff.mp h
      obtain ⟨rest, htail, rfl⟩ := map_eq_some_iff.mp hrest
      exact mem_indices_cons.mpr ⟨place_lt ha, ih htail⟩

theorem pos_of_mem_indices (h : ps ∈ indices ns) : ∀ n ∈ ns, 0 < n := by
  induction ns generalizing ps with
  | nil => simp
  | cons n ns ih =>
    obtain ⟨i, rest, rfl, hi, hrest⟩ := exists_of_mem_indices_cons h
    intro m hm
    cases mem_cons.mp hm with
    | inl heq => omega
    | inr hmem => exact ih hrest m hmem

def termValue (dim mult v : Int) : Int :=
  let norm := if v < 0 then wrap64 (v + dim) else v
  if mult = 1 then norm else wrap64 (norm * mult)

def addTerm (acc : Option Int) (t : Int) : Int :=
  match acc with
  | none => t
  | some a => wrap64 (a + t)

def combineValues : List (Int × Int) → List Int → Option Int → Option Int
  | (dim, mult) :: rest, v :: vs, acc => combineValues rest vs (some (addTerm acc (termValue dim mult v)))
  | _, _, acc => acc

variable {x idx : NDArray Int} {lead : List Nat} {k : Nat}

theorem normalizeIndex_spec (x : NDArray Int) (dim : Int) : ∃ y, normalizeIndex x dim = some y ∧ y.shape = x.shape ∧
    ∀ p ∈ indices x.shape, readAt y p = if readAt x p < 0 then wrap64 (readAt x p + dim) else readAt x p := by
  obtain ⟨neg, hneg⟩ : ∃ neg, neg = NDArray.ofFn x.shape fun p => if readAt x p < 0 then (1 : Int) else 0 := ⟨_, rfl⟩
  obtain ⟨shifted, hshifted⟩ : ∃ shifted, shifted = NDArray.ofFn x.shape fun p => wrap64 (readAt x p + dim) := ⟨_, rfl⟩
  have hless : less x (scalar 0) = some neg := by rw [less, binary_scalar, hneg]
  have hadd : add x (scalar dim) = some shifted := by rw [add, binary_scalar, hshifted]
  have hn : neg.shape = x.shape := by rw [hneg]; rfl
  have hs : shifted.shape = neg.shape := by rw [hneg, hshifted]; rfl
  refine ⟨NDArray.ofFn neg.shape fun p => if readAt neg p ≠ 0 then readAt shifted p else readAt x p, ?_, hn, ?_⟩
  · rw [normalizeIndex, hless, hadd]
    exact choose_same hs hn.symm
  · intro p hp
    have hp' : p ∈ indices neg.shape := by rwa [hn]
    rw [readAt_ofFn _ hp', hneg, readAt_ofFn _ hp, hshifted, readAt_ofFn _ hp]
    by_cases hlt : readAt x p < 0
    · rw [if_pos hlt, if_pos hlt, if_pos one_ne_zero]
    · rw [if_neg hlt, if_neg hlt, if_neg fun h => h rfl]

theorem scale_spec (norm : NDArray Int) (mult : Int) :
    ∃ t, scale norm mult = some t ∧ t.shape = norm.shape ∧
      ∀ p ∈ indices norm.shape,
        readAt t p = if mult = 1 then readAt norm p else wrap64 (readAt norm p * mult) := by
  by_cases hone : mult = 1
  · refine ⟨norm, if_pos hone, rfl, ?_⟩
    intro p _
    rw [if_pos hone]
  · refine ⟨_, (if_neg hone).trans (binary_scalar _ norm mult), rfl, ?_⟩
    intro p hp
    rw [if_neg hone]
    exact readAt_ofFn _ hp

theorem combineLoop_spec (hs : idx.shape = lead ++ [k]) {l : List (Int × Int)} {j : Nat}
    {combined : Option (NDArray Int)} (hj : j + l.length ≤ k) (hshape : ∀ c, combined = some c → c.shape = lead)
    (hsome : l ≠ [] ∨ combined.isSome) :
    ∃ c, combineLoop idx j l combined = some (some c) ∧ c.shape = lead ∧ ∀ q ∈ indices lead,
      some (readAt c q) = combineValues l ((List.range' j l.length).map fun j => readAt idx (q ++ [j]))
        (combined.map fun c => readAt c q) := by
  induction l generalizing j combined with
  | nil =>
    obtain ⟨c, rfl⟩ := isSome_iff_exists.mp (hsome.resolve_left fun h => h rfl)
    exact ⟨c, rfl, hshape c rfl, fun q _ => rfl⟩
  | cons d l ih =>
    obtain ⟨dim, mult⟩ := d
    rw [length_cons] at hj
    obtain ⟨col, hcol, hcshape, hcread⟩ := gather_column hs (show j < k by omega)
    obtain ⟨norm, hnorm, hnshape, hnread⟩ := normalizeIndex_spec col dim
    obtain ⟨t, ht, htshape, htread⟩ := scale_spec norm mult
    have htlead : t.shape = lead := htshape.trans (hnshape.trans hcshape)
    have hvalue : ∀ q ∈ indices lead, readAt t q = termValue dim mult (readAt idx (q ++ [j])) := by
      intro q hq
      have hq₁ : q ∈ indices col.shape := by rwa [hcshape]
      have hq₂ : q ∈ indices norm.shape := by rwa [hnshape]
      rw [htread q hq₂, hnread q hq₁, hcread q hq]
      rfl
    obtain ⟨c', hc', hnext⟩ : ∃ c', combineLoop idx j ((dim, mult) :: l) combined =
        combineLoop idx (j + 1) l (some c') ∧ c'.shape = lead ∧ ∀ q ∈ indices lead,
          readAt c' q = addTerm (combined.map fun c => readAt c q) (termValue dim mult (readAt idx (q ++ [j]))) := by
      cases hcombined : combined with
      | none =>
        refine ⟨t, ?_, htlead, hvalue⟩
        simp only [combineLoop, hcol, hnorm, ht, bind_eq_bind, bind_some]
      | some c =>
        have hclead := hshape c hcombined
        have hsum := binary_same (fun a b => wrap64 (a + b)) (htlead.trans hclead.symm)
        refine ⟨NDArray.ofFn c.shape fun p => wrap64 (readAt c p + readAt t p), ?_, hclead, ?_⟩
        · simp only [combineLoop, hcol, hnorm, ht, bind_eq_bind, bind_some, add, hsum]
        · intro q hq
          have hq' : q ∈ indices c.shape := by rwa [hclead]
          rw [readAt_ofFn _ hq', hvalue q hq]
          rfl
    have hshape' : ∀ c, some c' = some c → c.shape = lead := by
      intro c hc
      obtain rfl := Option.some.inj hc
      exact hnext.1
    obtain ⟨c, hc, hclead, hcvalue⟩ := ih (show j + 1 + l.length ≤ k by omega) hshape' (.inr rfl)
    refine ⟨c, hc'.trans hc, hclead, ?_⟩
    intro q hq
    rw [hcvalue q hq, length_cons, range'_succ, map_cons, combineValues, map_some,
      hnext.2 q hq]

variable {D : List Nat} {vs : List Int}

variable {d n i : Nat} {v : Int} {t c : NDArray Int}

theorem mults_cons (hpos : ∀ n ∈ D, 0 < n) (hfit : D.prod < 2 ^ 63) :
    mults ((d :: D).map (Nat.cast : Nat → Int)) = (D.prod : Int) :: mults (D.map (Nat.cast : Nat → Int)) := by
  induction D generalizing d with
  | nil => rfl
  | cons d' D ih =>
    rw [prod_cons] at hfit
    have hd' := hpos d' mem_cons_self
    have hle : D.prod ≤ d' * D.prod := Nat.le_mul_of_pos_left _ hd'
    have hrest := ih (d := d') (fun n hn => hpos n (mem_cons_of_mem d' hn)) (by omega)
    have hstep : mults ((d :: d' :: D).map (Nat.cast : Nat → Int)) =
        wrap64 ((mults ((d' :: D).map (Nat.cast : Nat → Int))).headD 1 * (d' : Int)) ::
          mults ((d' :: D).map (Nat.cast : Nat → Int)) := rfl
    rw [hstep, hrest, headD_cons, prod_cons, ← Nat.cast_mul, Nat.mul_comm D.prod d',
      (wrap64_eq_iff _).mpr hfit]

theorem termValue_exact {p S : Nat} (hp : place d v = some p) (hS : 0 < S) (hfit : d * S < 2 ^ 63) :
    termValue d S v = (p * S : Nat) := by
  obtain ⟨hlt, hv⟩ := place_eq_some.mp hp
  have hpS : p * S < d * S := Nat.mul_lt_mul_of_pos_right hlt hS
  have hd : d ≤ d * S := Nat.le_mul_of_pos_right d hS
  have hnorm : (if v < 0 then wrap64 (v + d) else v) = p := by
    by_cases hneg : v < 0
    · rw [if_pos hneg, show v + (d : Int) = (p : Nat) by omega]
      exact (wrap64_eq_iff p).mpr (by omega)
    · rw [if_neg hneg]
      omega
  unfold termValue
  rw [hnorm]
  by_cases hone : (S : Int) = 1
  · have hS₁ : S = 1 := by exact_mod_cast hone
    rw [if_pos hone, hS₁, Nat.mul_one]
  · rw [if_neg hone, ← Nat.cast_mul]
    exact (wrap64_eq_iff _).mpr (by omega)

theorem combineValues_cons (h : placeAll (d :: D) (v :: vs) = some ps) (hfit : (d :: D).prod < 2 ^ 63) :
    ∃ p rest, ps = p :: rest ∧ placeAll D vs = some rest ∧ p < d ∧ p * D.prod + D.prod ≤ (d :: D).prod ∧
      ∀ acc, combineValues (((d :: D).map (Nat.cast : Nat → Int)).zip (mults ((d :: D).map (Nat.cast : Nat → Int))))
        (v :: vs) acc = combineValues ((D.map (Nat.cast : Nat → Int)).zip (mults (D.map (Nat.cast : Nat → Int)))) vs
          (some (addTerm acc (p * D.prod : Nat))) := by
  obtain ⟨p, hp, hps⟩ := bind_eq_some_iff.mp h
  obtain ⟨rest, hrest, rfl⟩ := map_eq_some_iff.mp hps
  have hpos := pos_of_mem_indices (mem_indices_of_placeAll hrest)
  have hD : 0 < D.prod := prod_pos hpos
  have hlt := place_lt hp
  rw [prod_cons] at hfit ⊢
  have hstep : (p + 1) * D.prod ≤ d * D.prod := Nat.mul_le_mul_right _ hlt
  rw [Nat.succ_mul] at hstep
  have hle : D.prod ≤ d * D.prod := Nat.le_mul_of_pos_left _ (Nat.zero_lt_of_lt hlt)
  refine ⟨p, rest, rfl, hrest, hlt, hstep, fun acc => ?_⟩
  rw [mults_cons hpos (by omega), map_cons, zip_cons_cons, combineValues, termValue_exact hp hD hfit]

theorem combineValues_some {a : Nat} (h : placeAll D vs = some ps) (hfit : a + D.prod < 2 ^ 63) :
    ∃ o, offset D ps = some o ∧
      combineValues ((D.map (Nat.cast : Nat → Int)).zip (mults (D.map (Nat.cast : Nat → Int)))) vs (some (a : Int)) =
        some ((a + o : Nat) : Int) := by
  induction D generalizing vs ps a with
  | nil =>
    cases vs with
    | nil =>
      obtain rfl := Option.some.inj h
      exact ⟨0, rfl, rfl⟩
    | cons v vs => cases h
  | cons d D ih =>
    cases vs with
    | nil => cases h
    | cons v vs =>
      obtain ⟨p, rest, rfl, hrest, hlt, hstep, hcombine⟩ := combineValues_cons h (by omega)
      obtain ⟨o, ho, hvalue⟩ := ih (a := a + p * D.prod) hrest (by omega)
      refine ⟨p * D.prod + o, ?_, ?_⟩
      · rw [offset, if_pos hlt, ho, map_some]
      · rw [hcombine, addTerm, ← Nat.cast_add, (wrap64_eq_iff _).mpr (by omega), hvalue, Nat.add_assoc]

theorem combineValues_exact (h : placeAll D vs = some ps) (hne : D ≠ []) (hfit : D.prod < 2 ^ 63) :
    ∃ o, offset D ps = some o ∧
      combineValues ((D.map (Nat.cast : Nat → Int)).zip (mults (D.map (Nat.cast : Nat → Int)))) vs none =
        some (o : Int) := by
  cases D with
  | nil => exact absurd rfl hne
  | cons d D =>
    cases vs with
    | nil => cases h
    | cons v vs =>
      obtain ⟨p, rest, rfl, hrest, hlt, hstep, hcombine⟩ := combineValues_cons h hfit
      obtain ⟨o, ho, hvalue⟩ := combineValues_some (a := p * D.prod) hrest (by omega)
      exact ⟨p * D.prod + o, by rw [offset, if_pos hlt, ho, map_some], by rw [hcombine, addTerm, hvalue]⟩

theorem product_casts (D : List Nat) : product (D.map (Nat.cast : Nat → Int)) = wrap64 (D.prod : Nat) := by
  have hloop : ∀ (t : Int) (D : List Nat), (D.map (Nat.cast : Nat → Int)).foldl (fun D d => wrap64 (D * d)) (wrap64 t) =
      wrap64 (t * (D.prod : Nat)) := by
    intro t D
    induction D generalizing t with
    | nil => simp
    | cons d D ih =>
      rw [map_cons, foldl_cons, wrap64_wrap64_mul, ih, prod_cons]
      push_cast
      rw [mul_assoc]
  have hone : wrap64 1 = 1 := by decide
  have := hloop 1 D
  rwa [hone, one_mul] at this

theorem entryDims_past {l : List Nat} (hz : 0 ∈ l) (hi : 0 < i) :
    entryDims false [n] i (l.map (Nat.cast : Nat → Int)) = none := by
  induction l generalizing i with
  | nil => cases hz
  | cons a l ih =>
    rw [map_cons, entryDims]
    by_cases ha : a = 0
    · have hnone : entryDim false [n] i ((a : Nat) : Int) = none := by
        rw [entryDim, if_neg (by omega), if_neg (by omega), if_pos ⟨by omega, rfl⟩,
          getElem?_eq_none (by rw [length_singleton]; exact hi)]
        rfl
      rw [hnone]
      rfl
    · have hrest := ih ((mem_cons.mp hz).resolve_left fun h => ha h.symm) (Nat.succ_pos i)
      rw [hrest]
      cases entryDim false [n] i ((a : Nat) : Int) with
      | none => rfl
      | some d => rfl

variable {B S : List Nat} {p : Plan} {m : Nat}

theorem shape_vector (l : List Int) : (vector l).shape = [l.length] := rfl

theorem batchLoop_some {left : Nat} {P : Int} (hi : i + left ≤ S.length) (hs : t.shape = [])
    (ht : readAt t [] = wrap64 P) :
    ∃ t', batchLoop (vector (S.map (Nat.cast : Nat → Int))) i left (some t) = some (some t') ∧ t'.shape = [] ∧
      readAt t' [] = wrap64 (P * (((S.drop i).take left).prod : Nat)) := by
  induction left generalizing i t P with
  | zero => exact ⟨t, rfl, hs, by simpa using ht⟩
  | succ left ih =>
    have hlt : i < S.length := by omega
    obtain ⟨d, hd, hdshape, hdread⟩ :=
      gather_entry (show i < (S.map (Nat.cast : Nat → Int)).length by rw [length_map]; exact hlt)
    have hmul := binary_same (fun a b => wrap64 (a * b)) (hdshape.trans hs.symm)
    have hnil : ([] : List Nat) ∈ indices t.shape := by
      rw [hs]
      exact mem_singleton.mpr rfl
    have hread : readAt (NDArray.ofFn t.shape fun p => wrap64 (readAt t p * readAt d p)) [] =
        wrap64 (P * (S[i] : Nat)) := by
      rw [readAt_ofFn _ hnil, ht, hdread, getElem_map, wrap64_wrap64_mul]
    have hshape : (NDArray.ofFn t.shape fun p => wrap64 (readAt t p * readAt d p)).shape = [] := hs
    obtain ⟨t', ht', hs', hread'⟩ := ih (show i + 1 + left ≤ S.length by omega) hshape hread
    refine ⟨t', ?_, hs', ?_⟩
    · simp only [batchLoop, hd, bind_eq_bind, bind_some, mul, hmul]
      exact ht'
    · rw [hread', drop_eq_getElem_cons hlt, take_succ_cons, prod_cons]
      push_cast
      rw [mul_assoc]

theorem batchLoop_spec (hne : B ≠ []) (hfit : ∀ n ∈ B, n < 2 ^ 63) :
    ∃ t, batchLoop (vector ((B ++ S).map (Nat.cast : Nat → Int))) 0 B.length none = some (some t) ∧ t.shape = [] ∧
      readAt t [] = wrap64 (B.prod : Nat) := by
  cases B with
  | nil => exact absurd rfl hne
  | cons n B =>
    obtain ⟨d, hd, hdshape, hdread⟩ := gather_entry
      (show 0 < (((n :: B) ++ S).map (Nat.cast : Nat → Int)).length by rw [length_map]; exact Nat.succ_pos _)
    have hfirst : readAt d [] = wrap64 (n : Nat) := by
      rw [hdread, (wrap64_eq_iff n).mpr (hfit n mem_cons_self)]
      rfl
    obtain ⟨t, ht, hs, hread⟩ :=
      batchLoop_some (show 1 + B.length ≤ ((n :: B) ++ S).length by simp; omega) hdshape hfirst
    refine ⟨t, ?_, hs, ?_⟩
    · rw [length_cons]
      simp only [batchLoop, bind_eq_bind]
      rw [hd]
      exact ht
    · rw [hread, cons_append, drop_succ_cons, drop_zero, take_left, prod_cons]
      rfl

theorem rangeOf_spec (hs : t.shape = []) :
    rangeOf (scalar 0) t (scalar 1) = some (vector ((List.range (readAt t []).toNat).map (Nat.cast : Nat → Int))) := by
  have hzero : (scalar 0).shape = [] := rfl
  have hone : (scalar 1).shape = [] := rfl
  have hcount : count 0 (readAt t []) 1 = (readAt t []).toNat := by
    rw [count_of_pos one_pos, Int.ediv_one]
    congr 1
    omega
  have hterms : ∀ n, terms 0 1 n = (List.range n).map (Nat.cast : Nat → Int) := by
    intro n
    apply map_congr_left
    intro k _
    omega
  rw [rangeOf, hzero, hone, hs, readAt_scalar, readAt_scalar, if_pos ⟨rfl, rfl, rfl, one_ne_zero⟩, hcount, hterms]

theorem slice_head : sliceVector (vector ((B ++ S).map (Nat.cast : Nat → Int))) 0 B.length =
    some (vector (B.map (Nat.cast : Nat → Int))) := by
  have hdata : (vector ((B ++ S).map (Nat.cast : Nat → Int))).data = (B ++ S).map (Nat.cast : Nat → Int) := rfl
  have hrank : (vector ((B ++ S).map (Nat.cast : Nat → Int))).shape.length = 1 := rfl
  rw [sliceVector, if_pos hrank, hdata, drop_zero, map_append, take_left' (length_map _)]

theorem offset_zeros (m : Nat) : offset (List.replicate m 1) (List.replicate m 0) = some 0 := by
  induction m with
  | zero => rfl
  | succ m ih => rw [replicate_succ, replicate_succ, offset, if_pos one_pos, ih, map_some, Nat.zero_mul]

theorem readAt_range {o : Nat} {i : List Nat} {y : NDArray Int}
    (hdata : y.data = (vector ((List.range n).map (Nat.cast : Nat → Int))).data) (hi : offset y.shape i = some o)
    (ho : o < n) : readAt y i = o := by
  have hlen : o < ((List.range n).map (Nat.cast : Nat → Int)).length := by simpa using ho
  have hplace : offset y.shape i = offset (vector ((List.range n).map (Nat.cast : Nat → Int))).shape [o] := by
    rw [shape_vector, offset, if_pos hlen, hi]
    simp [offset]
  rw [readAt_of_data hdata hplace, readAt_vector hlen, getElem_map, getElem_range]

/-- Without zeros behind the first batch size, and with a number of batches that fits, there is an offset for each. -/
theorem batchOffset_some (hne : B ≠ []) (hp : p.b = B.length) (hfit : ∀ n ∈ B, n < 2 ^ 63)
    (hprod : B.prod < 2 ^ 63) (hzero : 0 ∉ B.drop 1) :
    ∃ off, batchOffset p m (vector ((B ++ S).map (Nat.cast : Nat → Int))) = some off ∧
      off.shape = B ++ List.replicate m 1 ∧ ∀ i ∈ indices B, ∀ o, offset B i = some o →
        readAt off (i ++ List.replicate m 0) = wrap64 (o * product p.dims) := by
  obtain ⟨t, ht, hts, htread⟩ := batchLoop_spec (S := S) hne hfit
  rw [(wrap64_eq_iff _).mpr hprod] at htread
  have hrange := rangeOf_spec hts
  rw [htread, Int.toNat_natCast] at hrange
  have hshape : (vector ((List.range B.prod).map (Nat.cast : Nat → Int))).shape = [B.prod] := by
    rw [shape_vector, length_map, length_range]
  have hspelled : entryDims false [B.prod] 0 (B.map (Nat.cast : Nat → Int)) = some (B.map some) := by
    apply entryDims_spelled
    refine .inr fun j hj => ?_
    cases B with
    | nil => cases hj
    | cons n B =>
      cases j with
      | zero =>
        rw [getElem?_cons_zero, Option.some.injEq] at hj
        simp [hj]
      | succ j =>
        rw [getElem?_cons_succ] at hj
        exact absurd (mem_of_getElem? hj) hzero
  have htarget : targetDims false (vector ((List.range B.prod).map (Nat.cast : Nat → Int))).shape
      (vector (B.map (Nat.cast : Nat → Int))).data = some B := by
    rw [hshape]
    exact (targetDims_stated hspelled).trans (if_pos (prod_singleton).symm)
  obtain ⟨flat, hflat, hfshape, hfdata⟩ := reshape_eq_some htarget (by rw [hshape, prod_singleton])
  have hmul := binary_scalar (fun a b => wrap64 (a * b)) flat (product p.dims)
  have hoffsets : ∀ i ∈ indices B, ∀ o, offset B i = some o →
      readAt (NDArray.ofFn flat.shape fun q => wrap64 (readAt flat q * product p.dims)) i =
        wrap64 (o * product p.dims) := by
    intro i hi o ho
    obtain ⟨o', hlt, ho'⟩ := offset_of_mem_indices hi
    obtain rfl : o' = o := Option.some.inj (ho'.symm.trans ho)
    rw [← hfshape] at hi ho
    rw [readAt_ofFn _ hi, readAt_range hfdata ho hlt]
  by_cases hm : 0 < m
  · have hspelled' : entryDims false B 0 ((B ++ List.replicate m 1).map (Nat.cast : Nat → Int)) =
        some ((B ++ List.replicate m 1).map some) := by
      apply entryDims_spelled
      refine .inr fun j hj => ?_
      rw [Nat.zero_add]
      by_cases hlt : j < B.length
      · rwa [getElem?_append_left hlt] at hj
      · rw [getElem?_append_right (not_lt.mp hlt)] at hj
        have := eq_of_mem_replicate (mem_of_getElem? hj)
        omega
    have hones : (B ++ List.replicate m 1).prod = B.prod := by simp
    have htarget' : targetDims false (NDArray.ofFn flat.shape fun q => wrap64 (readAt flat q * product p.dims)).shape
        (vector (B.map (Nat.cast : Nat → Int) ++ List.replicate m 1)).data = some (B ++ List.replicate m 1) := by
      have hmap : B.map (Nat.cast : Nat → Int) ++ List.replicate m 1 =
          (B ++ List.replicate m 1).map (Nat.cast : Nat → Int) := by
        rw [map_append, map_replicate]
        rfl
      show targetDims false flat.shape _ = _
      rw [hfshape, hmap]
      exact (targetDims_stated hspelled').trans (if_pos hones)
    obtain ⟨off, hoff, hoshape, hodata⟩ := reshape_eq_some htarget' (by
      show (B ++ List.replicate m 1).prod = flat.shape.prod
      rw [hones, hfshape])
    refine ⟨off, ?_, hoshape, ?_⟩
    · simp only [batchOffset, hp, slice_head, ht, hrange, hflat, mul, hmul, bind_eq_bind, bind_some, if_pos hm]
      exact hoff
    · intro i hi o ho
      have hplace : offset off.shape (i ++ List.replicate m 0) =
          offset (NDArray.ofFn flat.shape fun q => wrap64 (readAt flat q * product p.dims)).shape i := by
        show offset off.shape _ = offset flat.shape i
        rw [hoshape, hfshape, offset_append ho (offset_zeros m), ho, prod_replicate, one_pow, Nat.mul_one, Nat.add_zero]
      rw [readAt_of_data hodata hplace]
      exact hoffsets i hi o ho
  · obtain rfl : m = 0 := by omega
    refine ⟨NDArray.ofFn flat.shape fun q => wrap64 (readAt flat q * product p.dims), ?_, ?_, ?_⟩
    · simp only [batchOffset, hp, slice_head, ht, hrange, hflat, mul, hmul, bind_eq_bind, bind_some]
      exact if_neg hm
    · show flat.shape = _
      rw [hfshape, replicate_zero, append_nil]
    · intro i hi o ho
      rw [replicate_zero, append_nil]
      exact hoffsets i hi o ho

theorem batchOffset_none (hne : B ≠ []) (hp : p.b = B.length) (hfit : ∀ n ∈ B, n < 2 ^ 63)
    (h : 0 ∈ B.drop 1 ∨ 2 ^ 63 ≤ B.prod) :
    batchOffset p m (vector ((B ++ S).map (Nat.cast : Nat → Int))) = none := by
  obtain ⟨t, ht, hts, htread⟩ := batchLoop_spec (S := S) hne hfit
  have hrange := rangeOf_spec hts
  have hshape : (vector ((List.range (readAt t []).toNat).map (Nat.cast : Nat → Int))).shape =
      [(readAt t []).toNat] := by
    rw [shape_vector, length_map, length_range]
  have hreshape : reshape (vector ((List.range (readAt t []).toNat).map (Nat.cast : Nat → Int)))
      (vector (B.map (Nat.cast : Nat → Int))) = none := by
    by_cases hzero : 0 ∈ B.drop 1
    · have hentries : entryDims false [(readAt t []).toNat] 0 (B.map (Nat.cast : Nat → Int)) = none := by
        cases B with
        | nil => exact absurd rfl hne
        | cons n B =>
          have hrest : entryDims false [(readAt t []).toNat] (0 + 1) (B.map (Nat.cast : Nat → Int)) = none :=
            entryDims_past hzero Nat.one_pos
          rw [map_cons, entryDims, hrest]
          cases entryDim false [(readAt t []).toNat] 0 ((n : Nat) : Int) with
          | none => rfl
          | some d => rfl
      rw [reshape, hshape, targetDims]
      show ((entryDims false _ 0 (B.map (Nat.cast : Nat → Int))).bind _).bind _ = none
      rw [hentries]
      rfl
    · have hbig := h.resolve_left hzero
      have hnonzero : 0 ∉ B := by
        intro hmem
        rw [prod_eq_zero hmem] at hbig
        omega
      have hlt : (readAt t []).toNat < 2 ^ 63 := by
        have := Int.bmod_lt (x := (B.prod : Int)) (m := 2 ^ 64) (by norm_num)
        rw [htread, wrap64]
        omega
      have htarget : targetDims false [(readAt t []).toNat] (B.map (Nat.cast : Nat → Int)) = none := by
        rw [targetDims_stated (entryDims_literal (.inr hnonzero)), prod_singleton]
        exact if_neg (by omega)
      rw [reshape, hshape]
      show (targetDims false _ (B.map (Nat.cast : Nat → Int))).bind _ = none
      rw [htarget]
      rfl
  simp only [batchOffset, hp, slice_head, ht, hrange, hreshape, bind_eq_bind, bind_some, bind_none]

variable {X T : List Nat} {data : NDArray α}

omit [Inhabited α] in
theorem flattenData_eq (hs : data.shape = X ++ T) (hX : p.b + p.k = X.length) (hr : p.r = data.shape.length) :
    flattenData p data = reshape data (vector (-1 :: T.map (Nat.cast : Nat → Int))) := by
  have hlen : data.shape.length = X.length + T.length := by rw [hs, length_append]
  unfold flattenData
  by_cases hall : p.b + p.k = p.r
  · have hT : T = [] := length_eq_zero_iff.mp (by omega)
    rw [if_pos hall, hT]
    rfl
  · have htail : sliceVector (shapeOf data) (p.b + p.k) p.r = some (vector (T.map (Nat.cast : Nat → Int))) := by
      have hrank : (shapeOf data).shape.length = 1 := rfl
      have hdata : (shapeOf data).data = (X ++ T).map (Nat.cast : Nat → Int) := by rw [← hs]; rfl
      rw [sliceVector, if_pos hrank, hdata, hr, hs, take_of_length_le (by rw [length_map]), hX, map_append,
        drop_left' (length_map _)]
    rw [if_neg hall, htail]
    rfl

omit [Inhabited α] in
theorem flattenData_some (hs : data.shape = X ++ T) (hX : p.b + p.k = X.length) (hr : p.r = data.shape.length)
    (hzero : 0 ∉ T) : ∃ y, flattenData p data = some y ∧ y.shape = X.prod :: T ∧ y.data = data.data := by
  have hpos : ∀ v ∈ T.map (Nat.cast : Nat → Int), 0 < v := by
    intro v hv
    obtain ⟨n, hn, rfl⟩ := List.mem_map.mp hv
    have hne : n ≠ 0 := fun h => hzero (h ▸ hn)
    omega
  have hfill : (([] : List Int).map Int.toNat).prod * ((T.map (Nat.cast : Nat → Int)).map Int.toNat).prod * X.prod =
      data.shape.prod := by
    rw [toNat_casts, hs, prod_append, map_nil, prod_nil]
    ring
  have htarget : targetDims false data.shape ([] ++ -1 :: T.map (Nat.cast : Nat → Int)) = some _ :=
    targetDims_inferred (by simp) hpos hfill
  rw [toNat_casts] at htarget
  rw [flattenData_eq hs hX hr]
  apply reshape_eq_some htarget
  rw [hs, prod_append]
  rfl

theorem entryDims_dimensions {dims : List Nat} {es : List (Option Nat)}
    (h : entryDims false dims i (T.map (Nat.cast : Nat → Int)) = some es) :
    ∃ l : List Nat, es = l.map some ∧ l.length = T.length := by
  induction T generalizing i es with
  | nil =>
    obtain rfl := Option.some.inj h
    exact ⟨[], rfl, rfl⟩
  | cons n T ih =>
    rw [map_cons, entryDims] at h
    obtain ⟨d, hd, htail⟩ := bind_eq_some_iff.mp h
    obtain ⟨rest, hrest, rfl⟩ := map_eq_some_iff.mp htail
    obtain ⟨l, rfl, hlen⟩ := ih hrest
    obtain ⟨m, rfl⟩ : ∃ m, d = some m := by
      rw [entryDim, if_neg (by omega), if_neg (by omega)] at hd
      split_ifs at hd
      · obtain ⟨m, -, rfl⟩ := map_eq_some_iff.mp hd
        exact ⟨m, rfl⟩
      · exact ⟨_, (Option.some.inj hd).symm⟩
    exact ⟨m :: l, rfl, by rw [length_cons, length_cons, hlen]⟩

omit [Inhabited α] in
theorem flattenData_tail (hs : data.shape = X ++ T) (hX : p.b + p.k = X.length) (hr : p.r = data.shape.length)
    {y : NDArray α} (h : flattenData p data = some y) :
    ∃ n s, y.shape = n :: s ∧ s.length = T.length ∧ 0 ∉ s := by
  rw [flattenData_eq hs hX hr] at h
  have htarget : targetDims false data.shape (-1 :: T.map (Nat.cast : Nat → Int)) = some y.shape := (of_reshape h).1
  obtain ⟨es, hes⟩ : ∃ es, entryDims false data.shape 1 (T.map (Nat.cast : Nat → Int)) = some es := by
    cases hes : entryDims false data.shape 1 (T.map (Nat.cast : Nat → Int)) with
    | some es => exact ⟨es, rfl⟩
    | none =>
      rw [targetDims, entryDims, Nat.zero_add, hes] at htarget
      cases htarget
  obtain ⟨l, rfl, hlen⟩ := entryDims_dimensions hes
  have hentries : entryDims false data.shape 0 (-1 :: T.map (Nat.cast : Nat → Int)) =
      some (([] : List Nat).map some ++ none :: l.map some) := by
    rw [entryDims, Nat.zero_add, hes]
    rfl
  rw [targetDims_one_inferred hentries] at htarget
  split_ifs at htarget with hcond
  refine ⟨_, l, (Option.some.inj htarget).symm, hlen, ?_⟩
  intro hz
  exact hcond.1 (prod_eq_zero (mem_append_right _ hz))

variable {r : GatherNdRun α}

/-- The parts of the shapes of a run: batch axes, indexed axes, trailing axes and the axes of the tuples. -/
structure Layout (r : GatherNdRun α) (B D T E : List Nat) : Prop where
  dataShape : r.data.shape = (B ++ D) ++ T
  indicesShape : r.indices.shape = (B ++ E) ++ [D.length]
  batches : r.plan.b = B.length
  depth : r.plan.k = D.length
  rank : r.plan.r = r.data.shape.length
  extra : r.plan.q - r.plan.b - 1 = E.length
  dims : r.plan.dims = D.map (Nat.cast : Nat → Int)
  indexed : D ≠ []
  places : ∀ q ∈ indices (B ++ E), (placeAll D (tuple r.indices D.length q)).isSome
  out : r.out = NDArray.ofFn ((B ++ E) ++ T) fun p =>
    readAt r.data ((p.take (B ++ E).length).take B.length ++
      ((placeAll D (tuple r.indices D.length (p.take (B ++ E).length))).getD [] ++ p.drop (B ++ E).length))

theorem last_recorded {ds : List Dimension} {shape : List Nat} {k : Int}
    (h : List.Forall₂ (fun d (n : Nat) => ∀ m : Int, d = .size m → m = n) ds shape)
    (hk : ds.getLast?.bind knownSize = some k) (hn : shape.getLast? = some n) : k = n := by
  induction h with
  | nil => cases hn
  | @cons d m ds shape hd hrest ih =>
    cases hrest with
    | nil =>
      obtain rfl := Option.some.inj hn
      apply hd
      have hknown : knownSize d = some k := hk
      cases d with
      | size s => rw [Option.some.inj hknown]
      | unknown => cases hknown
      | param s => cases hknown
    | @cons d' m' ds shape hd' hrest =>
      rw [getLast?_cons_cons] at hk hn
      exact ih hk hn

theorem exists_layout (r : GatherNdRun α) : ∃ B D T E, Layout r B D T E := by
  have haccepted := r.accepted
  have hvalid := r.valid
  unfold patternMatchPredicate at haccepted
  by_cases hdomain : r.node.domain.getD "" ≠ ""
  · rw [if_pos hdomain] at haccepted
    cases haccepted
  rw [if_neg hdomain] at haccepted
  by_cases hoperands : r.node.inputs ≠ 2 ∨ r.node.outputs ≠ 1
  · rw [if_pos hoperands] at haccepted
    cases haccepted
  rw [if_neg hoperands] at haccepted
  obtain ⟨is, his, haccepted⟩ := bind_eq_some_iff.mp haccepted
  obtain ⟨k, hk, haccepted⟩ := bind_eq_some_iff.mp haccepted
  by_cases hk₁ : k < 1
  · rw [if_pos hk₁] at haccepted
    cases haccepted
  rw [if_neg hk₁] at haccepted
  obtain ⟨ds, hds, haccepted⟩ := bind_eq_some_iff.mp haccepted
  by_cases hranks : r.node.batchDims.getD 0 < 0 ∨ (ds.length : Int) < r.node.batchDims.getD 0 + k ∨
      (is.length : Int) < r.node.batchDims.getD 0 + 1
  · rw [if_pos hranks] at haccepted
    cases haccepted
  rw [if_neg hranks] at haccepted
  obtain ⟨dims, hdims, haccepted⟩ := bind_eq_some_iff.mp haccepted
  split_ifs at haccepted with hopset
  have hplan := (Option.some.inj haccepted).symm
  obtain ⟨k', hk', hout⟩ := bind_eq_some_iff.mp hvalid
  dsimp only at hout
  split_ifs at hout with hcond
  obtain ⟨hk'₁, hrank, hlead, hshared, hplaces⟩ := hcond
  have hout := (Option.some.inj hout).symm
  have hirec := r.indicesRecorded is his
  have hdrec := r.dataRecorded ds hds
  have hkk : k = k' := last_recorded hirec hk hk'
  have hshape : r.indices.shape = r.indices.shape.dropLast ++ [k'] := (dropLast_append_getLast? k' hk').symm
  obtain ⟨lead, hleadeq⟩ : ∃ lead, lead = r.indices.shape.dropLast := ⟨_, rfl⟩
  obtain ⟨b, hb⟩ : ∃ b, b = (r.node.batchDims.getD 0).toNat := ⟨_, rfl⟩
  rw [← hleadeq] at hshape hlead hshared hplaces hout
  rw [← hb] at hrank hlead hshared hplaces hout hdims hplan
  have hBlen : (lead.take b).length = b := length_take_of_le hlead
  have hDlen : ((r.data.shape.drop b).take k').length = k' := by
    rw [length_take_of_le]
    rw [List.length_drop]
    omega
  have hlead' : lead.take b ++ lead.drop b = lead := take_append_drop b lead
  have hdata : r.data.shape = lead.take b ++ (r.data.shape.drop b).take k' ++ r.data.shape.drop (b + k') := by
    rw [← hshared, append_assoc, ← List.drop_drop, take_append_drop, take_append_drop]
  have hilen : is.length = lead.length + 1 := by
    rw [hirec.length_eq, hshape, length_append, length_singleton]
  refine ⟨lead.take b, (r.data.shape.drop b).take k', r.data.shape.drop (b + k'), lead.drop b, ?_⟩
  constructor
  · exact hdata
  · rw [hlead', hDlen, ← hshape]
  · rw [hplan, hBlen]
  · rw [hplan, hDlen, hkk]
    rfl
  · rw [hplan]
    exact hdrec.length_eq
  · rw [hplan, List.length_drop]
    dsimp only
    omega
  · rw [hplan]
    rw [hkk, Int.toNat_natCast] at hdims
    exact sizes_of_recorded (forall₂_take k' (forall₂_drop b hdrec)) hdims
  · intro hnil
    rw [hnil] at hDlen
    simp at hDlen
    omega
  · rw [hlead', hDlen]
    exact hplaces
  · rw [hlead', hDlen, hBlen]
    exact hout

theorem length_mults (dims : List Int) : (mults dims).length = dims.length := by
  fun_induction mults dims with
  | case1 => rfl
  | case2 d => rfl
  | case3 d d' dims ih => rw [length_cons, length_cons, ih]

variable {E : List Nat}

theorem Layout.combined (h : Layout r B D T E) :
    ∃ c, combineLoop r.indices 0 (r.plan.dims.zip (mults r.plan.dims)) none = some (some c) ∧ c.shape = B ++ E ∧
      ∀ q ∈ indices (B ++ E), ∀ ps, placeAll D (tuple r.indices D.length q) = some ps → D.prod < 2 ^ 63 →
        ∃ o, offset D ps = some o ∧ readAt c q = o := by
  have hlen : (r.plan.dims.zip (mults r.plan.dims)).length = D.length := by
    rw [length_zip, length_mults, Nat.min_self, h.dims, length_map]
  have hne : r.plan.dims.zip (mults r.plan.dims) ≠ [] := by
    intro hnil
    rw [hnil] at hlen
    exact h.indexed (length_eq_zero_iff.mp hlen.symm)
  have hnone : ∀ c : NDArray Int, none = some c → c.shape = B ++ E := by
    intro c hc
    cases hc
  obtain ⟨c, hc, hshape, hvalue⟩ :=
    combineLoop_spec h.indicesShape (show 0 + _ ≤ D.length by rw [hlen]; omega) hnone (.inl hne)
  refine ⟨c, hc, hshape, ?_⟩
  intro q hq ps hps hfit
  obtain ⟨o, ho, hcomb⟩ := combineValues_exact hps h.indexed hfit
  have hread := hvalue q hq
  rw [hlen, ← range_eq_range', h.dims] at hread
  exact ⟨o, ho, Option.some.inj (hread.trans hcomb)⟩

def flatIndices (p : Plan) (shape combined : NDArray Int) : Option (NDArray Int) :=
  if 0 < p.b then (batchOffset p (p.q - p.b - 1) shape).bind (add combined) else some combined

theorem runTransform_eq {p : Plan} {data : NDArray α} {idx : NDArray Int}
    (hc : combineLoop idx 0 (p.dims.zip (mults p.dims)) none = some (some c)) :
    runTransform p data idx = (flattenData p data).bind fun flat =>
      (flatIndices p (shapeOf data) c).bind fun fi => gather 0 flat fi := by
  simp only [runTransform, hc, flatIndices, bind_eq_bind, bind_some]
  by_cases hb : 0 < p.b
  · simp only [if_pos hb, bind_assoc]
  · simp only [if_neg hb, bind_some]

theorem Layout.shapeOf_data (h : Layout r B D T E) :
    shapeOf r.data = vector ((B ++ (D ++ T)).map (Nat.cast : Nat → Int)) := by
  rw [shapeOf, h.dataShape, append_assoc]

theorem Layout.fits (h : Layout r B D T E) : ∀ n ∈ B, n < 2 ^ 63 := by
  intro n hn
  apply r.fits
  rw [h.dataShape]
  exact mem_append_left _ (mem_append_left _ hn)

theorem Layout.spelled (h : Layout r B D T E) {fi : NDArray Int}
    (hfi : flatIndices r.plan (shapeOf r.data) c = some fi) :
    0 ∉ B.drop 1 ∧ B.prod < 2 ^ 63 := by
  by_cases hB : B = []
  · rw [hB]
    exact ⟨by simp, by simp⟩
  · by_contra hbad
    have hcases : 0 ∈ B.drop 1 ∨ 2 ^ 63 ≤ B.prod := by
      rw [not_and_or, not_not, not_lt] at hbad
      exact hbad
    have hpos : 0 < r.plan.b := by
      rw [h.batches]
      exact length_pos_iff.mpr hB
    rw [flatIndices, if_pos hpos, h.shapeOf_data, batchOffset_none hB h.batches h.fits hcases] at hfi
    cases hfi

theorem Layout.flatIndices_spec (h : Layout r B D T E) (hcshape : c.shape = B ++ E) (hzero : 0 ∉ B.drop 1)
    (hprod : B.prod < 2 ^ 63) :
    ∃ fi, flatIndices r.plan (shapeOf r.data) c = some fi ∧ fi.shape = B ++ E ∧
      ∀ i ∈ indices B, ∀ e ∈ indices E, ∀ ps ∈ indices D, ∀ o, offset D ps = some o → readAt c (i ++ e) = o →
        (B ++ D).prod < 2 ^ 63 → ∃ v < (B ++ D).prod, offset (B ++ D) (i ++ ps) = some v ∧ readAt fi (i ++ e) = v := by
  by_cases hB : B = []
  · subst hB
    have hb : ¬ 0 < r.plan.b := by
      rw [h.batches]
      exact lt_irrefl 0
    refine ⟨c, if_neg hb, hcshape, ?_⟩
    intro i hi e _ ps hps o ho hread _
    obtain ⟨o', hlt, ho'⟩ := offset_of_mem_indices hps
    obtain rfl : o' = o := Option.some.inj (ho'.symm.trans ho)
    obtain rfl := mem_singleton.mp hi
    exact ⟨o', hlt, ho, hread⟩
  · have hb : 0 < r.plan.b := by
      rw [h.batches]
      exact length_pos_iff.mpr hB
    obtain ⟨off, hoff, hoshape, horead⟩ :=
      batchOffset_some (S := D ++ T) (m := E.length) hB h.batches h.fits hprod hzero
    have hadd : add c off = some (NDArray.ofFn (B ++ E) fun p =>
        wrap64 (readAt c (alignIndex c.shape p) + readAt off (alignIndex off.shape p))) := by
      rw [add, binary, hcshape, hoshape, broadcast_trailing_ones, map_some]
    refine ⟨NDArray.ofFn (B ++ E) fun p =>
      wrap64 (readAt c (alignIndex c.shape p) + readAt off (alignIndex off.shape p)), ?_, rfl, ?_⟩
    · rw [flatIndices, if_pos hb, h.extra, h.shapeOf_data, hoff, bind_some]
      exact hadd
    · intro i hi e he ps hps o ho hread hfit
      obtain ⟨ob, hblt, hob⟩ := offset_of_mem_indices hi
      obtain ⟨o', hlt, ho'⟩ := offset_of_mem_indices hps
      obtain rfl : o' = o := Option.some.inj (ho'.symm.trans ho)
      have hq : i ++ e ∈ indices (B ++ E) := append_mem_indices hi he
      have hq' : i ++ e ∈ indices c.shape := by rwa [hcshape]
      rw [prod_append] at hfit
      have hstep : (ob + 1) * D.prod ≤ B.prod * D.prod := Nat.mul_le_mul_right _ hblt
      rw [Nat.succ_mul] at hstep
      have hDle : D.prod ≤ B.prod * D.prod := Nat.le_mul_of_pos_left _ (Nat.zero_lt_of_lt hblt)
      refine ⟨ob * D.prod + o', ?_, offset_append hob ho, ?_⟩
      · rw [prod_append]
        omega
      · rw [readAt_ofFn _ hq, alignIndex_self hq', hread, hoshape, align_trailing_ones hi he, horead i hi ob hob,
          h.dims, product_casts, (wrap64_eq_iff _).mpr (by omega), ← Nat.cast_mul, (wrap64_eq_iff _).mpr (by omega),
          ← Nat.cast_add, (wrap64_eq_iff _).mpr (by omega), Nat.add_comm]

theorem readAt_flat {flat : NDArray α} {i ps t : List Nat} {v : Nat} (hs : r.data.shape = (B ++ D) ++ T)
    (hshape : flat.shape = (B ++ D).prod :: T) (hdata : flat.data = r.data.data) (hv : v < (B ++ D).prod)
    (hoff : offset (B ++ D) (i ++ ps) = some v) (ht : t ∈ indices T) :
    readAt flat (v :: t) = readAt r.data (i ++ (ps ++ t)) := by
  obtain ⟨ot, -, hot⟩ := offset_of_mem_indices ht
  apply readAt_of_data hdata
  rw [hs, hshape, ← append_assoc, offset_append hoff hot, offset, if_pos hv, hot, map_some]

theorem Layout.exact (h : Layout r B D T E) (hzeroB : 0 ∉ B.drop 1) (hzeroT : 0 ∉ T) (hprod : B.prod < 2 ^ 63) :
    r.Exact := by
  have hX : r.plan.b + r.plan.k = (B ++ D).length := by rw [h.batches, h.depth, length_append]
  obtain ⟨flat, hflat, hfshape, hfdata⟩ := flattenData_some h.dataShape hX h.rank hzeroT
  obtain ⟨c, hc, hcshape, hcread⟩ := h.combined
  obtain ⟨fi, hfi, hfishape, hfiread⟩ := h.flatIndices_spec hcshape hzeroB hprod
  -- Where there is a tuple at all, no size is zero, so that the products fit.
  have hread : ∀ i ∈ indices B, ∀ e ∈ indices E, ∃ ps v, placeAll D (tuple r.indices D.length (i ++ e)) = some ps ∧
      v < (B ++ D).prod ∧ offset (B ++ D) (i ++ ps) = some v ∧ readAt fi (i ++ e) = v := by
    intro i hi e he
    have hq : i ++ e ∈ indices (B ++ E) := append_mem_indices hi he
    obtain ⟨ps, hps⟩ := isSome_iff_exists.mp (h.places _ hq)
    have hpsmem := mem_indices_of_placeAll hps
    have hTpos : 0 < T.prod := Nat.pos_of_ne_zero fun hz => hzeroT (prod_eq_zero_iff.mp hz)
    have hBpos : 0 < B.prod := prod_pos (pos_of_mem_indices hi)
    have hheld := r.held
    rw [h.dataShape, prod_append] at hheld
    have hfit : (B ++ D).prod < 2 ^ 63 := lt_of_le_of_lt (Nat.le_mul_of_pos_right _ hTpos) hheld
    have hDfit : D.prod < 2 ^ 63 := by
      rw [prod_append] at hfit
      exact lt_of_le_of_lt (Nat.le_mul_of_pos_left _ hBpos) hfit
    obtain ⟨o, ho, hco⟩ := hcread _ hq ps hps hDfit
    obtain ⟨v, hv, hoff, hvread⟩ := hfiread i hi e he ps hpsmem o ho hco hfit
    exact ⟨ps, v, hps, hv, hoff, hvread⟩
  have hplace : place flat.shape.length 0 = some 0 := by
    apply place_eq_some.mpr
    rw [hfshape]
    exact ⟨Nat.succ_pos _, .inl rfl⟩
  have hfirst : flat.shape.getD 0 0 = (B ++ D).prod := by rw [hfshape]; rfl
  have hdefined : ∀ v ∈ fi.data, (place (flat.shape.getD 0 0) v).isSome := by
    intro v hv
    obtain ⟨q, hq, rfl⟩ := mem_data.mp hv
    rw [hfishape] at hq
    obtain ⟨i, e, rfl, hi, he⟩ := exists_of_mem_indices_append hq
    obtain ⟨ps, v, -, hlt, -, hvread⟩ := hread i hi e he
    rw [hfirst, hvread, place_eq_some.mpr ⟨hlt, .inl rfl⟩]
    rfl
  have hgather : gather 0 flat fi = some (gathered 0 flat fi) :=
    gather_eq_some.mpr ⟨0, hplace, hdefined, rfl⟩
  have hshape : flat.shape = [] ++ (B ++ D).prod :: T := hfshape
  have hgshape : (gathered 0 flat fi).shape = (B ++ E) ++ T := by
    have hshapes : (gathered 0 flat fi).shape = [] ++ (fi.shape ++ T) := shape_gathered hshape rfl
    rw [hshapes, hfishape, nil_append]
  have hout : gathered 0 flat fi = r.out := by
    apply ext_readAt
    · rw [hgshape, h.out]
      rfl
    · intro p hp
      rw [hgshape] at hp
      obtain ⟨q, t, rfl, hq, ht⟩ := exists_of_mem_indices_append hp
      obtain ⟨i, e, rfl, hi, he⟩ := exists_of_mem_indices_append hq
      obtain ⟨ps, v, hps, hlt, hoff, hvread⟩ := hread i hi e he
      have hnil : ([] : List Nat) ∈ indices [] := mem_singleton.mpr rfl
      have hleft : readAt (gathered 0 flat fi) ((i ++ e) ++ t) = readAt flat (v :: t) := by
        have hq' : i ++ e ∈ indices fi.shape := by rwa [hfishape]
        have hgread := readAt_gathered hshape rfl hnil hq' ht
        rw [nil_append, hvread, place_eq_some.mpr ⟨hlt, .inl rfl⟩, getD_some, nil_append] at hgread
        exact hgread
      have hqlen : (i ++ e).length = (B ++ E).length := length_of_mem_indices hq
      have hilen : i.length = B.length := length_of_mem_indices hi
      rw [hleft, h.out, readAt_ofFn _ hp, ← hqlen, take_left, drop_left, ← hilen, take_left, hps,
        getD_some]
      exact readAt_flat h.dataShape hfshape hfdata hlt hoff ht
  rw [GatherNdRun.Exact, runTransform_eq hc, hflat, bind_some, hfi, bind_some, hgather, hout]

theorem Layout.of_exact (h : Layout r B D T E) (hexact : r.Exact) : 0 ∉ B.drop 1 ∧ 0 ∉ T ∧ B.prod < 2 ^ 63 := by
  have hX : r.plan.b + r.plan.k = (B ++ D).length := by rw [h.batches, h.depth, length_append]
  obtain ⟨c, hc, -, -⟩ := h.combined
  rw [GatherNdRun.Exact, runTransform_eq hc] at hexact
  obtain ⟨flat, hflat, hrest⟩ := bind_eq_some_iff.mp hexact
  obtain ⟨fi, hfi, hgather⟩ := bind_eq_some_iff.mp hrest
  obtain ⟨hzeroB, hprod⟩ := h.spelled hfi
  refine ⟨hzeroB, ?_, hprod⟩
  obtain ⟨n, s, hfshape, hslen, hs⟩ := flattenData_tail h.dataShape hX h.rank hflat
  obtain ⟨k, hk, -, hgathered⟩ := gather_eq_some.mp hgather
  have hk₀ : k = 0 := by
    obtain ⟨hlt, hfront | hback⟩ := place_eq_some.mp hk
    · omega
    · omega
  subst hk₀
  have hshape : flat.shape = [] ++ n :: s := hfshape
  have hout : fi.shape ++ s = (B ++ E) ++ T := by
    have hgshape : (gathered 0 flat fi).shape = fi.shape ++ s := shape_gathered hshape rfl
    rw [← hgshape, hgathered, h.out]
    rfl
  have hsT : s = T := (append_inj' hout hslen).2
  rw [← hsT]
  exact hs

/-- The rewrite is exact where no size that a Reshape spells is zero and the number of batches fits. -/
theorem gatherNd_lowering_exact_iff (r : GatherNdRun α) :
    r.Exact ↔ 0 ∉ r.respelled ∧ (r.data.shape.take r.plan.b).prod < 2 ^ 63 := by
  obtain ⟨B, D, T, E, h⟩ := exists_layout r
  have hB : r.data.shape.take r.plan.b = B := by
    rw [h.dataShape, h.batches, append_assoc, take_left]
  have hT : r.data.shape.drop (r.plan.b + r.plan.k) = T := by
    rw [h.dataShape, h.batches, h.depth, ← length_append, drop_left]
  rw [GatherNdRun.respelled, hB, hT, mem_append, not_or]
  constructor
  · intro hexact
    obtain ⟨h₁, h₂, h₃⟩ := h.of_exact hexact
    exact ⟨⟨h₁, h₂⟩, h₃⟩
  · rintro ⟨⟨h₁, h₂⟩, h₃⟩
    exact h.exact h₁ h₂ h₃

theorem recorded_sizes (shape : List Nat) :
    Recorded (some (shape.map fun n : Nat => Dimension.size n)) shape := by
  intro l hl
  obtain rfl := Option.some.inj hl
  apply forall₂_map_left_iff.mpr
  apply forall₂_same.mpr
  intro n _ m hm
  cases hm
  rfl

/-- A GatherND with negative indices below a batch axis. -/
theorem batched_lowering_exact : ∃ r : GatherNdRun Int,
    r.data = ⟨[2, 2], [10, 11, 12, 13], rfl⟩ ∧ r.indices = ⟨[2, 1], [-1, 0], rfl⟩ ∧ r.plan.b = 1 ∧
      r.out = ⟨[2], [11, 12], rfl⟩ ∧ r.Exact :=
  ⟨⟨⟨none, 2, 1, some 1, 13, some [.size 2, .size 2], some [.size 2, .size 1]⟩, ⟨1, 1, 2, 2, [2]⟩, by decide,
      ⟨[2, 2], [10, 11, 12, 13], rfl⟩, ⟨[2, 1], [-1, 0], rfl⟩, by decide, by decide, recorded_sizes [2, 2],
      recorded_sizes [2, 1], ⟨[2], [11, 12], rfl⟩, by decide⟩,
    rfl, rfl, rfl, rfl, (gatherNd_lowering_exact_iff _).mpr (by decide)⟩

/-- Of data with a trailing axis of size zero nothing is left, or another shape. -/
theorem empty_axes_misread :
    (∃ r : GatherNdRun Int, r.data = ⟨[2, 0], [], rfl⟩ ∧ r.indices = ⟨[1, 1], [0], rfl⟩ ∧ r.out = ⟨[1, 0], [], rfl⟩ ∧
      runTransform r.plan r.data r.indices = none ∧ ¬ r.Exact) ∧
    ∃ r : GatherNdRun Int, r.data = ⟨[2, 3, 0], [], rfl⟩ ∧ r.indices = ⟨[0, 2], [], rfl⟩ ∧ r.out = ⟨[0, 0], [], rfl⟩ ∧
      runTransform r.plan r.data r.indices = some ⟨[0, 3], [], rfl⟩ ∧ ¬ r.Exact := by
  constructor
  · refine ⟨⟨⟨none, 2, 1, none, 13, some [.size 2, .size 0], some [.size 1, .size 1]⟩, ⟨0, 1, 2, 2, [2]⟩, by decide,
      ⟨[2, 0], [], rfl⟩, ⟨[1, 1], [0], rfl⟩, by decide, by decide, recorded_sizes [2, 0], recorded_sizes [1, 1],
      ⟨[1, 0], [], rfl⟩, by decide⟩, rfl, rfl, rfl, by decide, ?_⟩
    rw [GatherNdRun.Exact]
    decide
  · refine ⟨⟨⟨none, 2, 1, none, 13, some [.size 2, .size 3, .size 0], some [.size 0, .size 2]⟩, ⟨0, 2, 3, 2, [2, 3]⟩,
      by decide, ⟨[2, 3, 0], [], rfl⟩, ⟨[0, 2], [], rfl⟩, by decide, by decide, recorded_sizes [2, 3, 0],
      recorded_sizes [0, 2], ⟨[0, 0], [], rfl⟩, by decide⟩, rfl, rfl, rfl, by decide, ?_⟩
    rw [GatherNdRun.Exact]
    decide

end Onnxsim.Passes.GatherNd
