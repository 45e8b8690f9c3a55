import Onnxsim.Passes.ConstantGathers
import Onnxsim.Passes.ShapeSlices

namespace Onnxsim.Passes.IndexArrays

open List Option Lib.Progressions
open Overflow.Arrays PartialShape.Reshaping
open ConstantGathers (vector)
open Gathers ShapeSlices
open Reduce
open ShapeRanges.Broadcasting (actualBroadcast2 actualBroadcast2_self actualBroadcastDim actualBroadcastDims
  actualBroadcastDims_self actualPad)

variable {α : Type}

def scalar (v : Int) : NDArray Int := ⟨[], [v], rfl⟩

def reshape (x : NDArray α) (target : NDArray Int) : Option (NDArray α) :=
  (targetDims false x.shape target.data).bind fun shape =>
    if h : x.data.length = shape.prod then some ⟨shape, x.data, h⟩ else none

def shapeOf (x : NDArray α) : NDArray Int := vector (x.shape.map (Nat.cast : Nat → Int))

def sliceVector (v : NDArray Int) (start stop : Nat) : Option (NDArray Int) :=
  if v.shape.length = 1 then some (vector ((v.data.take stop).drop start)) else none

def concatVectors (v w : NDArray Int) : Option (NDArray Int) :=
  if v.shape.length = 1 ∧ w.shape.length = 1 then some (vector (v.data ++ w.data)) else none

def rangeOf (start limit delta : NDArray Int) : Option (NDArray Int) :=
  if start.shape = [] ∧ limit.shape = [] ∧ delta.shape = [] ∧ readAt delta [] ≠ 0 then
    some (vector (terms (readAt start []) (readAt delta [])
      (count (readAt start []) (readAt limit []) (readAt delta []))))
  else none

/-- An operator on the elements of two tensors that are broadcast to one shape. -/
def binary (f : Int → Int → Int) (x y : NDArray Int) : Option (NDArray Int) :=
  (actualBroadcast2 x.shape y.shape).map fun s =>
    NDArray.ofFn s fun p => f (readAt x (alignIndex x.shape p)) (readAt y (alignIndex y.shape p))

def add : NDArray Int → NDArray Int → Option (NDArray Int) := binary fun a b => wrap64 (a + b)

def mul : NDArray Int → NDArray Int → Option (NDArray Int) := binary fun a b => wrap64 (a * b)

def less : NDArray Int → NDArray Int → Option (NDArray Int) := binary fun a b => if a < b then 1 else 0

def choose (cond x y : NDArray Int) : Option (NDArray Int) :=
  (actualBroadcast2 cond.shape x.shape).bind fun s => (actualBroadcast2 s y.shape).map fun s =>
    NDArray.ofFn s fun p =>
      if readAt cond (alignIndex cond.shape p) ≠ 0 then readAt x (alignIndex x.shape p)
      else readAt y (alignIndex y.shape p)

theorem readAt_scalar (v : Int) : readAt (scalar v) [] = v := rfl

theorem alignIndex_nil (p : List Nat) : alignIndex [] p = [] := rfl

theorem actualBroadcastDims_ones (s : List Nat) : actualBroadcastDims s (List.replicate s.length 1) = some s := by
  induction s with
  | nil => rfl
  | cons n s ih =>
    have hdim : actualBroadcastDim n 1 = some n := by
      unfold actualBroadcastDim
      by_cases hn : n = 1
      · rw [if_pos hn]
      · rw [if_neg hn, if_neg hn, if_pos rfl]
    rw [length_cons, replicate_succ, actualBroadcastDims, hdim, ih]
    rfl

theorem broadcast_nil (s : List Nat) : actualBroadcast2 s [] = some s := by
  have hmax : max s.length 0 = s.length := Nat.max_zero _
  rw [actualBroadcast2, length_nil, hmax, actualPad, actualPad, Nat.sub_self, length_nil, Nat.sub_zero,
    replicate_zero, nil_append, append_nil]
  exact actualBroadcastDims_ones s

theorem broadcast_trailing_ones (s t : List Nat) :
    actualBroadcast2 (s ++ t) (s ++ List.replicate t.length 1) = some (s ++ t) := by
  have hdims : actualBroadcastDims (s ++ t) (s ++ List.replicate t.length 1) = some (s ++ t) := by
    induction s with
    | nil => exact actualBroadcastDims_ones t
    | cons n s ih =>
      have hdim : actualBroadcastDim n n = some n := if_pos rfl
      rw [cons_append, cons_append, actualBroadcastDims, hdim, ih]
      rfl
  have hlen : (s ++ List.replicate t.length 1).length = (s ++ t).length := by simp
  rw [actualBroadcast2, hlen, Nat.max_self, actualPad, actualPad, hlen, Nat.sub_self, replicate_zero,
    nil_append, nil_append]
  exact hdims

theorem zipWith_align {s i : List Nat} (h : i ∈ indices s) :
    List.zipWith (fun n i => if n = 1 then 0 else i) s i = i := by
  have hself := alignIndex_self h
  rwa [alignIndex, length_of_mem_indices h, Nat.sub_self, drop_zero] at hself

theorem align_trailing_ones {s t i e : List Nat} (hi : i ∈ indices s) (he : e ∈ indices t) :
    alignIndex (s ++ List.replicate t.length 1) (i ++ e) = i ++ List.replicate t.length 0 := by
  have hli := length_of_mem_indices hi
  have hle := length_of_mem_indices he
  have hones : ∀ (m : Nat) (l : List Nat), l.length = m →
      List.zipWith (fun n i => if n = 1 then 0 else i) (List.replicate m 1) l = List.replicate m 0 := by
    intro m
    induction m with
    | zero => exact fun l _ => rfl
    | succ m ih =>
      intro l hl
      obtain ⟨a, rest, rfl⟩ := exists_cons_of_length_eq_add_one hl
      rw [replicate_succ, zipWith_cons_cons, if_pos rfl, ih rest (by simpa using hl), replicate_succ]
  have hlen : (i ++ e).length - (s ++ List.replicate t.length 1).length = 0 := by
    simp [hli, hle]
  rw [alignIndex, hlen, drop_zero, zipWith_append hli.symm, zipWith_align hi, hones _ e hle]

section

variable {x y z : NDArray Int} {p : List Nat}

theorem binary_scalar (f : Int → Int → Int) (x : NDArray Int) (c : Int) :
    binary f x (scalar c) = some (NDArray.ofFn x.shape fun p => f (readAt x p) c) := by
  have hs : (scalar c).shape = [] := rfl
  rw [binary, hs, broadcast_nil, map_some]
  apply congrArg some
  apply Axes.ofFn_congr rfl
  intro p hp
  rw [alignIndex_self hp, alignIndex_nil, readAt_scalar]

theorem binary_same (f : Int → Int → Int) (h : y.shape = x.shape) :
    binary f x y = some (NDArray.ofFn x.shape fun p => f (readAt x p) (readAt y p)) := by
  rw [binary, h, actualBroadcast2_self, map_some]
  apply congrArg some
  apply Axes.ofFn_congr rfl
  intro p hp
  rw [alignIndex_self hp]

theorem choose_same (hx : x.shape = z.shape) (hy : y.shape = z.shape) :
    choose z x y = some (NDArray.ofFn z.shape fun p => if readAt z p ≠ 0 then readAt x p else readAt y p) := by
  rw [choose, hx, hy, actualBroadcast2_self, bind_some, actualBroadcast2_self, map_some]
  apply congrArg some
  apply Axes.ofFn_congr rfl
  intro p hp
  rw [alignIndex_self hp]

end

variable {x y : NDArray α} {target : NDArray Int} {s : List Nat}

theorem reshape_eq_some (h : targetDims false x.shape target.data = some s) (hprod : s.prod = x.shape.prod) :
    ∃ y, reshape x target = some y ∧ y.shape = s ∧ y.data = x.data := by
  have hlen : x.data.length = s.prod := x.length_data.trans hprod.symm
  refine ⟨⟨s, x.data, hlen⟩, ?_, rfl, rfl⟩
  rw [reshape, h, bind_some, dif_pos hlen]

theorem of_reshape (h : reshape x target = some y) :
    targetDims false x.shape target.data = some y.shape ∧ y.data = x.data := by
  obtain ⟨s, hs, hy⟩ := bind_eq_some_iff.mp h
  split_ifs at hy with hlen
  obtain rfl := Option.some.inj hy
  exact ⟨hs, rfl⟩

theorem readAt_of_data [Inhabited α] {p q : List Nat} (hdata : y.data = x.data) (h : offset y.shape q = offset x.shape p) :
    readAt y q = readAt x p := by
  rw [readAt, readAt, NDArray.get?, NDArray.get?, h, hdata]

theorem readAt_vector {l : List Int} {i : Nat} (h : i < l.length) : readAt (vector l) [i] = l[i] := by
  have hoff : offset [l.length] [i] = some i := by
    rw [offset, if_pos h]
    simp [offset]
  have hget : (vector l).get? [i] = l[i]? := by
    show (offset [l.length] [i]).bind (fun k => l[k]?) = l[i]?
    rw [hoff, bind_some]
  rw [readAt, hget, getElem?_eq_getElem h, getD_some]

variable {idx : NDArray Int} {lead : List Nat} {k j : Nat}

theorem gather_column (hs : idx.shape = lead ++ [k]) (hj : j < k) :
    ∃ col, gather (-1) idx (scalar j) = some col ∧ col.shape = lead ∧
      ∀ q ∈ indices lead, readAt col q = readAt idx (q ++ [j]) := by
  have hlen : idx.shape.length = lead.length + 1 := by rw [hs, length_append, length_singleton]
  have hplace : place idx.shape.length (-1) = some lead.length := by
    apply place_eq_some.mpr
    rw [hlen]
    refine ⟨Nat.lt_succ_self _, .inr ?_⟩
    omega
  have hlast : idx.shape.getD lead.length 0 = k := by rw [hs, getD_mid k rfl]
  have hin : place k (j : Int) = some j := place_eq_some.mpr ⟨hj, .inl rfl⟩
  have hdefined : ∀ i ∈ (scalar j).data, (place (idx.shape.getD lead.length 0) i).isSome := by
    intro i hi
    cases mem_singleton.mp hi
    rw [hlast, hin]
    rfl
  have hshape : (gathered lead.length idx (scalar j)).shape = lead := by
    rw [shape_gathered hs rfl]
    exact append_nil lead
  refine ⟨gathered lead.length idx (scalar j), gather_eq_some.mpr ⟨lead.length, hplace, hdefined, rfl⟩, hshape, ?_⟩
  intro q hq
  have hnil : ([] : List Nat) ∈ indices [] := mem_singleton.mpr rfl
  have hread : readAt (gathered lead.length idx (scalar j)) (q ++ ([] ++ [])) = _ := readAt_gathered hs rfl hq hnil hnil
  rw [append_nil, append_nil, readAt_scalar, hin, getD_some] at hread
  exact hread

theorem gather_entry {l : List Int} {i : Nat} (hi : i < l.length) :
    ∃ y, gather 0 (vector l) (scalar i) = some y ∧ y.shape = [] ∧ readAt y [] = l[i] := by
  have hs : (vector l).shape = [] ++ l.length :: [] := rfl
  have hplace : place (vector l).shape.length 0 = some 0 := rfl
  have hin : place l.length (i : Int) = some i := place_eq_some.mpr ⟨hi, .inl rfl⟩
  have hdefined : ∀ j ∈ (scalar i).data, (place ((vector l).shape.getD 0 0) j).isSome := by
    intro j hj
    cases mem_singleton.mp hj
    show (place l.length (i : Int)).isSome
    rw [hin]
    rfl
  have hnil : ([] : List Nat) ∈ indices [] := mem_singleton.mpr rfl
  have hread : readAt (gathered 0 (vector l) (scalar i)) ([] ++ ([] ++ [])) = _ :=
    readAt_gathered hs rfl hnil hnil hnil
  rw [readAt_scalar, hin, getD_some] at hread
  exact ⟨gathered 0 (vector l) (scalar i), gather_eq_some.mpr ⟨0, hplace, hdefined, rfl⟩, shape_gathered hs rfl,
    hread.trans (readAt_vector hi)⟩

end Onnxsim.Passes.IndexArrays
