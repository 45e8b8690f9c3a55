import Onnxsim.Reduce.Exactness

namespace Onnxsim.Reduce.NopReduce

open List Option Lib.Reductions Overflow.Arrays Axes Fusion Mapping
open Exactness

section

def isIdentityOnSingletonKind (k : ReduceKind) : Bool :=
  k ∈ [.reduceSum, .reduceMean, .reduceMax, .reduceMin, .reduceProd]

def unitAxis (sizes : List Dimension) (a : Int) : Bool :=
  0 ≤ a ∧ a < sizes.length ∧ sizes[a.toNat]? = some (.size 1)

variable (addYIfNegative : Int → Int → Int)

def matchUnitAxes (node : ReduceNode) (xSizes : Option (List Dimension)) : Option (List Int) :=
  match resolveAxes addYIfNegative node (xSizes.map List.length) with
  | none => none
  | some (_, true) => some []
  | some (axes, false) =>
    let axes := sortUnique axes
    if axes = [] then some []
    else
      match xSizes with
      | none => none
      | some sizes => if axes.all (unitAxis sizes) then some axes else none

/-- What takes the place of a node: its input, or a `Squeeze` of it. -/
inductive Elimination where
  | declines
  | input
  | squeeze (axes : List Int)
deriving DecidableEq, Repr

/-- `EliminateNopReduce` on a node. -/
def eliminate (node : ReduceNode) (xSizes : Option (List Dimension)) : Elimination :=
  if isIdentityOnSingletonKind node.kind then
    match matchUnitAxes addYIfNegative node xSizes with
    | none => .declines
    | some axes => if axes = [] ∨ getKeepdims node ≠ 0 then .input else .squeeze axes
  else .declines

end

variable {axes : List Int} {ν : String → Nat} {R : Reduction (Option ℚ)} {x : Tensor} {mask : List Bool}

def UnitAxes (dims : List Nat) (mask : List Bool) : Prop := ∀ i : Nat, mask[i]? = some true → dims[i]? = some 1

variable {dims : List Nat}

theorem UnitAxes.tail {n : Nat} {b : Bool} (h : UnitAxes (n :: dims) (b :: mask)) : UnitAxes dims mask := fun i hi => h (i + 1) hi

theorem unit_shape (h : UnitAxes dims mask) : reducedShape true dims mask = dims := by
  induction dims generalizing mask with
  | nil => simp
  | cons n dims ih =>
    cases mask with
    | nil => simp
    | cons b mask =>
      have hrest := ih h.tail
      cases b with
      | false => rw [reducedShape, hrest]
      | true =>
        have hn : n = 1 := by simpa using h 0 rfl
        simp [reducedShape, hrest, hn]

theorem unit_key {idx : List Nat} (h : UnitAxes dims mask) (hidx : idx ∈ indices dims) : key true mask idx = idx := by
  induction dims generalizing mask idx with
  | nil =>
    cases mem_singleton.mp hidx
    simp
  | cons n dims ih =>
    obtain ⟨i, rest, rfl, hi, hrest⟩ := exists_of_mem_indices_cons hidx
    cases mask with
    | nil => simp
    | cons b mask =>
      have htail := ih h.tail hrest
      cases b with
      | false => rw [key, htail]
      | true =>
        have hn : n = 1 := by simpa using h 0 rfl
        have hzero : 0 = i := by omega
        simp [key, htail, hzero]

theorem reduce_units (h : UnitAxes x.shape mask) : reduce R true mask x = x :=
  reduce_self R x (unit_shape h) fun _ hidx => unit_key h hidx

theorem removeUnits_eq (hlen : mask.length = dims.length) (h : UnitAxes dims mask) :
    removeUnits mask dims = some (reducedShape false dims mask) := by
  induction mask, dims, hlen using pair_induct with
  | nil => rfl
  | cons b n mask dims _ ih =>
    cases b with
    | false => simp [removeUnits, reducedShape, ih h.tail]
    | true =>
      have hn : n = 1 := by simpa using h 0 rfl
      simp [removeUnits, reducedShape, ih h.tail, hn]

theorem unitAxes_of_declared {sizes : List Dimension} (hconf : Conforms ν sizes dims)
    (hall : axes.all (unitAxis sizes) = true) :
    UnitAxes dims (maskOf axes dims.length) := by
  intro i hi
  obtain ⟨hlt, hmem⟩ := (getElem?_maskFrom i).mp hi
  have hunit : unitAxis sizes i = true := by
    have h := List.all_eq_true.mp hall _ hmem
    rwa [zero_add] at h
  simp only [unitAxis, decide_eq_true_eq, Int.toNat_natCast] at hunit
  have hget := forall₂_iff_get.mp hconf
  have hi' : i < sizes.length := by
    rw [hconf.length_eq]
    exact hlt
  have hdim := hget.2 i hi' hlt
  have hsize : sizes[i] = .size 1 := by
    have h := hunit.2.2
    rw [getElem?_eq_getElem hi'] at h
    exact Option.some.inj h
  rw [get_eq_getElem, hsize] at hdim
  rw [getElem?_eq_getElem hlt]
  exact congrArg some (Int.ofNat.inj hdim)

theorem squeeze_eval (hunit : UnitAxes x.shape (maskOf axes x.shape.length))
    (hrange : ∀ a ∈ axes, 0 ≤ a ∧ a < (x.shape.length : Int)) :
    (ReshapeLike.squeeze (some axes)).eval x = some (reduce R false (maskOf axes x.shape.length) x) := by
  have hshape : (ReshapeLike.squeeze (some axes)).shape x.shape =
      some (reducedShape false x.shape (maskOf axes x.shape.length)) := by
    rw [ReshapeLike.shape, mapM_axisOf_nonneg hrange, bind_some, removeUnits_eq (length_maskOf _ _) hunit]
  have hdata : x.data = (reduce R false (maskOf axes x.shape.length) x).data := by
    rw [← reduce_toggle, reduce_units hunit]
  rw [ReshapeLike.eval, hshape, bind_some, dif_pos]
  · congr 1
    exact ext rfl hdata
  · rw [hdata]
    exact (reduce R false (maskOf axes x.shape.length) x).length_data

variable {addYIfNegative : Int → Int → Int} (hadd : ∀ a r, addYIfNegative a r = if a < 0 then a + r else a)
  {node : ReduceNode} {xSizes : Option (List Dimension)} {y : Tensor}

theorem reach_identity {known : Option Nat} (rank : Nat)
    (h : resolveAxes addYIfNegative node known = some (axes, true)) : reach node rank = some .identity := by
  have hspelled : ∀ raw, spelledAxes node.axes = some raw →
      (if raw = [] then
        if node.noopWithEmptyAxes.getD 0 ≠ 0 then some ([], true) else known.map fun r => (allAxes r, false)
      else (normalizeAxes addYIfNegative raw known).map fun axes => (axes, false)) = some (axes, true) →
      reach node rank = some .identity := by
    intro raw hraw h
    rw [reach, hraw, bind_some]
    by_cases hnil : raw = []
    · rw [if_pos hnil] at h ⊢
      by_cases hnoop : node.noopWithEmptyAxes.getD 0 ≠ 0
      · rw [if_pos hnoop]
      · rw [if_neg hnoop] at h
        obtain ⟨r, -, heq⟩ := map_eq_some_iff.mp h
        cases congrArg Prod.snd heq
    · rw [if_neg hnil] at h
      obtain ⟨r, -, heq⟩ := map_eq_some_iff.mp h
      cases congrArg Prod.snd heq
  cases haxes : node.axes with
  | byAttribute raw =>
    simp only [resolveAxes, haxes] at h
    exact hspelled raw (by rw [haxes, spelledAxes]) h
  | constant raw =>
    simp only [resolveAxes, haxes] at h
    exact hspelled raw (by rw [haxes, spelledAxes]) h
  | dynamic =>
    simp only [resolveAxes, haxes] at h
    cases h
  | omitted =>
    simp only [resolveAxes, haxes] at h
    obtain ⟨r, -, heq⟩ := map_eq_some_iff.mp h
    cases congrArg Prod.snd heq

include hadd in
theorem matched_cases (hmatch : matchUnitAxes addYIfNegative node xSizes = some axes)
    (hconf : ∀ sizes, xSizes = some sizes → Conforms ν sizes x.shape) (hy : node.eval x = some y) :
    (axes = [] ∧ y = x) ∨
      (axes ≠ [] ∧ UnitAxes x.shape (maskOf axes x.shape.length) ∧ (∀ a ∈ axes, 0 ≤ a ∧ a < (x.shape.length : Int)) ∧
        ((Misread node ∧ y = x) ∨
          (¬Misread node ∧ ∃ R : Reduction (Option ℚ), y = reduce R (keeps node) (maskOf axes x.shape.length) x))) := by
  obtain ⟨R, hR, hcases⟩ := eval_cases hy
  unfold matchUnitAxes at hmatch
  split at hmatch
  · cases hmatch
  · next _ hres =>
    have hid := reach_identity x.shape.length hres
    cases hcases with
    | inl hsame => exact .inl ⟨(Option.some.inj hmatch).symm, hsame.2⟩
    | inr hover =>
      obtain ⟨mask, hmask, -⟩ := hover
      rw [hid] at hmask
      cases hmask
  · next raw hres =>
    have hknown : xSizes.map List.length = none ∨ xSizes.map List.length = some x.shape.length := by
      cases hx : xSizes with
      | none => exact .inl rfl
      | some sizes => exact .inr (congrArg some (hconf sizes hx).length_eq)
    obtain ⟨ρ, hρ⟩ := exists_reach hy
    have hresolved := resolveAxes_resolved hadd hknown hres hρ
    have hrange : ∀ a ∈ sortUnique raw, 0 ≤ a ∧ a < (x.shape.length : Int) :=
      fun a ha => hresolved.range a (mem_sortUnique.mp ha)
    have hmeaning : (Misread node ∧ y = x) ∨
        (¬Misread node ∧ y = reduce R (keeps node) (maskOf (sortUnique raw) x.shape.length) x) := by
      by_cases hmis : Misread node
      · refine .inl ⟨hmis, ?_⟩
        rcases hcases with h | ⟨mask, hmask, -⟩
        · exact h.2
        · rw [hρ, (hresolved.misread hmis).2.2] at hmask
          cases hmask
      · refine .inr ⟨hmis, ?_⟩
        rw [hresolved.exact hmis, ← maskOf_sortUnique] at hρ
        exact eval_over hy hR hρ
    by_cases hnil : sortUnique raw = []
    · simp only [hnil, if_true] at hmatch
      refine .inl ⟨(Option.some.inj hmatch).symm, ?_⟩
      rcases hmeaning with h | h
      · exact h.2
      · rw [h.2, hnil]
        rw [hresolved.nil_of_sorted hnil]
        exact reduce_self R x (reducedShape_unmarked x.shape) fun idx _ => key_unmarked idx
    · simp only [hnil, if_false] at hmatch
      cases hx : xSizes with
      | none => simp [hx] at hmatch
      | some sizes =>
        simp only [hx] at hmatch
        by_cases hall : (sortUnique raw).all (unitAxis sizes)
        · rw [if_pos hall] at hmatch
          obtain rfl := Option.some.inj hmatch
          refine .inr ⟨hnil, unitAxes_of_declared (hconf sizes hx) hall, hrange, ?_⟩
          rcases hmeaning with h | h
          · exact .inl h
          · exact .inr ⟨h.1, R, h.2⟩
        · rw [if_neg hall] at hmatch
          cases hmatch

include hadd in
theorem eliminate_exact (hconf : ∀ sizes, xSizes = some sizes → Conforms ν sizes x.shape) (hy : node.eval x = some y) :
    (eliminate addYIfNegative node xSizes = .input → y = x) ∧
      ∀ axes, eliminate addYIfNegative node xSizes = .squeeze axes →
        ((ReshapeLike.squeeze (some axes)).eval x = some y ↔ ¬Misread node) := by
  unfold eliminate
  by_cases hkind : isIdentityOnSingletonKind node.kind
  · rw [if_pos hkind]
    cases hmatch : matchUnitAxes addYIfNegative node xSizes with
    | none => exact ⟨fun h => (by cases h), fun axes h => (by cases h)⟩
    | some matched =>
      have hcases := matched_cases hadd hmatch hconf hy
      dsimp only
      by_cases hinput : matched = [] ∨ getKeepdims node ≠ 0
      · rw [if_pos hinput]
        refine ⟨fun _ => ?_, fun axes h => (by cases h)⟩
        rcases hcases with h | ⟨hne, hunit, -, h | ⟨-, R, hred⟩⟩
        · exact h.2
        · exact h.2
        · have hkeep : keeps node = true := decide_eq_true (hinput.resolve_left hne)
          rw [hred, hkeep]
          exact reduce_units hunit
      · rw [if_neg hinput]
        obtain ⟨hne, hkeepdims⟩ := not_or.mp hinput
        refine ⟨fun h => (by cases h), fun axes h => ?_⟩
        obtain rfl := Elimination.squeeze.inj h
        rcases hcases with h | ⟨-, hunit, hrange, h | ⟨hmis, R, hred⟩⟩
        · exact absurd h.1 hne
        · apply iff_of_false _ (not_not.mpr h.1)
          intro heval
          have hsq := (squeeze_eval (R := sum) hunit hrange).symm.trans heval
          have hshape := congrArg (fun z : Tensor => z.shape.length) (Option.some.inj hsq)
          rw [h.2] at hshape
          have hcount : (maskOf matched x.shape.length).count false = x.shape.length :=
            (length_drop (length_maskOf matched x.shape.length)).symm.trans hshape
          obtain ⟨a, ha⟩ := exists_mem_of_ne_nil matched hne
          have hmem := mem_maskOf hrange ha
          have hall := count_eq_length.mp (hcount.trans (length_maskOf matched x.shape.length).symm)
          cases hall true hmem
        · have hkeep : keeps node = false := decide_eq_false hkeepdims
          apply iff_of_true _ hmis
          have hsq := squeeze_eval (R := R) hunit hrange
          rw [hsq, hred, hkeep]
  · rw [if_neg hkind]
    exact ⟨fun h => (by cases h), fun axes h => (by cases h)⟩

include hadd in
/-- Both passes: a fused pair keeps its result exactly when it fuses well, a dropped reduction returns its input,
and a squeezed one keeps its result exactly when it is not misread. -/
theorem reductions_exact :
    (∀ (p : Pair) fused ν (x y : Tensor), fuse addYIfNegative p = .fuses fused → p.Declared ν x → p.eval x = some y →
      (fused.eval x = some y ↔ FusesWell p x.shape y.shape)) ∧
    ∀ node (xSizes : Option (List Dimension)) ν (x y : Tensor),
      (∀ sizes, xSizes = some sizes → Conforms ν sizes x.shape) → node.eval x = some y →
      (eliminate addYIfNegative node xSizes = .input → y = x) ∧
        ∀ axes, eliminate addYIfNegative node xSizes = .squeeze axes →
          ((ReshapeLike.squeeze (some axes)).eval x = some y ↔ ¬Misread node) := by
  constructor
  · intro p fused ν x y hfuse hdecl hy
    exact fuse_iff hadd hfuse hdecl hy
  · intro node xSizes ν x y hconf hy
    exact eliminate_exact hadd hconf hy

def addIfNegative (a r : Int) : Int := if a < 0 then a + r else a

def greatest (axes : AxesOperand) (keepdims : Int) : ReduceNode := ⟨.reduceMax, axes, none, some keepdims⟩

def maxPair (ka kb : Int) : Pair :=
  ⟨greatest (.constant [0]) ka, 1, none, 0, greatest (.constant [-1]) kb, some [.size 2, .size 2], none, 18⟩

def square : Tensor := ⟨[2, 2], [some 1, some 2, some 4, some 3], rfl⟩

/-- Maxima over the rows, kept, and then over the columns, dropped: the pair leaves one axis, the fused node none. -/
theorem kept_rows_are_lost :
    ∃ fused, fuse addIfNegative (maxPair 1 0) = .fuses fused ∧
      (maxPair 1 0).eval square = some ⟨[1], [some 4], rfl⟩ ∧ fused.eval square = some ⟨[], [some 4], rfl⟩ := by
  refine ⟨⟨.reduceMax, .constant [0, 1], none, some 0⟩, ?_, ?_, ?_⟩
  · decide
  · decide
  · decide

theorem dropped_rows_fuse :
    fuse addIfNegative (maxPair 0 0) = .fuses ⟨.reduceMax, .constant [0, 1], none, some 0⟩ ∧
      ReduceNode.eval ⟨.reduceMax, .constant [0, 1], none, some 0⟩ square = some ⟨[], [some 4], rfl⟩ := by
  have hfuse : fuse addIfNegative (maxPair 0 0) = .fuses ⟨.reduceMax, .constant [0, 1], none, some 0⟩ := by decide
  have hdecl : (maxPair 0 0).Declared (fun _ => 0) square := by
    constructor
    · intro sizes hsizes
      obtain rfl := Option.some.inj hsizes
      exact .cons rfl (.cons rfl .nil)
    · intro sizes mid hsizes
      cases hsizes
  have heval : (maxPair 0 0).eval square = some ⟨[], [some 4], rfl⟩ := by decide
  have hwell : FusesWell (maxPair 0 0) [2, 2] [] := by
    rw [FusesWell, if_neg (by decide)]
    exact .inl rfl
  exact ⟨hfuse, ((reductions_exact fun _ _ => rfl).1 (maxPair 0 0) _ _ square _ hfuse hdecl heval).mpr hwell⟩

end Onnxsim.Reduce.NopReduce
