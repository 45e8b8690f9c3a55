import Onnxsim.Fold.SubModels

namespace Onnxsim.PartialShape.Reshaping

open List Option

/-- What an entry of a `Reshape` target stands for: a dimension or, inside, the one to be inferred. -/
def entryDim (allowzero : Bool) (dims : List Nat) (i : Nat) (v : Int) : Option (Option Nat) :=
  if v = -1 then some none
  else if v < 0 then none
  else if v = 0 ∧ allowzero = false then dims[i]?.map some
  else some (some v.toNat)

def entryDims (allowzero : Bool) (dims : List Nat) : Nat → List Int → Option (List (Option Nat))
  | _, [] => some []
  | i, v :: vs => (entryDim allowzero dims i v).bind fun d =>
      (entryDims allowzero dims (i + 1) vs).map fun ds => d :: ds

/-- The shape that `Reshape` gives to a tensor of the shape `dims`. -/
def targetDims (allowzero : Bool) (dims : List Nat) (shape : List Int) : Option (List Nat) :=
  (entryDims allowzero dims 0 shape).bind fun ds =>
    let known := (ds.filterMap id).prod
    if ds.count none = 0 then if known = dims.prod then some (ds.filterMap id) else none
    else if ds.count none = 1 then
      if allowzero = true ∧ 0 ∈ shape then none
      else if known ≠ 0 ∧ known ∣ dims.prod then some (ds.map fun d => d.getD (dims.prod / known)) else none
    else none

variable {allowzero : Bool} {dims : List Nat}

theorem entryDims_append (i : Nat) (vs ws : List Int) : entryDims allowzero dims i (vs ++ ws) =
    (entryDims allowzero dims i vs).bind fun ds =>
      (entryDims allowzero dims (i + vs.length) ws).map fun es => ds ++ es := by
  induction vs generalizing i with
  | nil =>
    rw [nil_append, entryDims, bind_some, length_nil, Nat.add_zero]
    simp
  | cons v vs ih =>
    rw [cons_append, entryDims, entryDims, ih, length_cons, Nat.add_right_comm, Nat.add_assoc i]
    cases entryDim allowzero dims i v with
    | none => rfl
    | some d =>
      cases entryDims allowzero dims (i + 1) vs with
      | none => rfl
      | some ds =>
        cases entryDims allowzero dims (i + (vs.length + 1)) ws with
        | none => rfl
        | some es => rfl

theorem entryDims_positive {vs : List Int} (h : ∀ v ∈ vs, 0 < v) (i : Nat) :
    entryDims allowzero dims i vs = some (vs.map fun v => some v.toNat) := by
  induction vs generalizing i with
  | nil => rfl
  | cons v vs ih =>
    have hv := h v mem_cons_self
    rw [entryDims, ih (fun w hw => h w (mem_cons_of_mem v hw)), entryDim, if_neg (by omega), if_neg (by omega),
      if_neg (by omega), bind_some, map_some, map_cons]

theorem filterMap_somes (vs : List Int) : (vs.map fun v => some v.toNat).filterMap id = vs.map Int.toNat := by
  rw [filterMap_map, ← filterMap_eq_map]
  rfl

theorem count_somes (vs : List Int) : (vs.map fun v => some v.toNat).count none = 0 :=
  count_eq_zero.mpr fun h => by
    obtain ⟨v, -, heq⟩ := List.mem_map.mp h
    cases heq

theorem prod_positive {vs : List Int} (h : ∀ v ∈ vs, 0 < v) : 0 < (vs.map Int.toNat).prod := by
  refine Nat.pos_of_ne_zero fun hzero => ?_
  obtain ⟨v, hv, heq⟩ := List.mem_map.mp (prod_eq_zero_iff.mp hzero)
  have := h v hv
  omega

variable {vs ws : List Int}

theorem entryDims_split (hvs : ∀ v ∈ vs, 0 < v) (hws : ∀ v ∈ ws, 0 < v) (u : Int) :
    entryDims allowzero dims 0 (vs ++ u :: ws) =
      (entryDim allowzero dims vs.length u).map fun d =>
        (vs.map fun v => some v.toNat) ++ d :: ws.map fun v => some v.toNat := by
  rw [entryDims_append, entryDims_positive hvs, bind_some, Nat.zero_add, entryDims, entryDims_positive hws]
  cases entryDim allowzero dims vs.length u with
  | none => rfl
  | some d => rfl

theorem targetDims_inferred (hvs : ∀ v ∈ vs, 0 < v) (hws : ∀ v ∈ ws, 0 < v) {d : Nat}
    (hd : (vs.map Int.toNat).prod * (ws.map Int.toNat).prod * d = dims.prod) :
    targetDims allowzero dims (vs ++ -1 :: ws) = some (vs.map Int.toNat ++ d :: ws.map Int.toNat) := by
  have hpos : 0 < (vs.map Int.toNat).prod * (ws.map Int.toNat).prod :=
    Nat.mul_pos (prod_positive hvs) (prod_positive hws)
  have hzero : ¬ (0 : Int) ∈ vs ++ -1 :: ws := by
    intro h
    cases mem_append.mp h with
    | inl h => exact absurd (hvs 0 h) (lt_irrefl 0)
    | inr h =>
      cases mem_cons.mp h with
      | inl h => cases h
      | inr h => exact absurd (hws 0 h) (lt_irrefl 0)
  have hentry : entryDim allowzero dims vs.length (-1) = some none := rfl
  have hknown : (((vs.map fun v => some v.toNat) ++ none :: ws.map fun v => some v.toNat).filterMap id).prod =
      (vs.map Int.toNat).prod * (ws.map Int.toNat).prod := by
    rw [filterMap_append, filterMap_cons_none rfl, filterMap_somes, filterMap_somes, prod_append]
  have hcount : ((vs.map fun v => some v.toNat) ++ none :: ws.map fun v => some v.toNat).count none = 1 := by
    rw [count_append, count_cons_self, count_somes, count_somes]
  rw [targetDims, entryDims_split hvs hws, hentry, map_some, bind_some]
  rw [hknown, hcount, if_neg one_ne_zero, if_pos rfl, if_neg (fun h => hzero h.2),
    if_pos ⟨hpos.ne', Dvd.intro d hd⟩, ← hd, Nat.mul_div_cancel_left d hpos]
  simp [Function.comp_def]

end Onnxsim.PartialShape.Reshaping
