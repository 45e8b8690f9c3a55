import Onnxsim.Overflow.Accumulators

namespace Onnxsim.Overflow.AccumulatorSound

open List Option Lib.OrderedMaps Lib.Results Lib.PartialSums
open Arrays Operators Intervals
open Certificate Accumulators

variable {attrs : Attrs} {x w : Tensor} {c : Option Tensor} {mx mw mb : ℚ} {idx : List Nat}

theorem abs_sum_scaled (s : ℚ) (l : List ℚ) : ((l.map fun p => s * p).map abs).sum = |s| * (l.map abs).sum := by
  induction l with
  | nil => simp
  | cons p l ih => rw [map_cons, map_cons, sum_cons, ih, abs_mul, map_cons, sum_cons, mul_add]

def gemmBias (attrs : Attrs) (c : Option Tensor) (idx : List Nat) : List ℚ :=
  ((c.bind fun c => c.get? (alignIndex c.shape [idx.headD 0, idx.getLastD 0])).toList).map
    fun b => attrs.beta.getD 1 * b

theorem gemm_le (hmx : 0 ≤ mx) (hx : ∀ v ∈ x.data, |v - 0| ≤ mx)
    (hbias : ((gemmBias attrs c idx).map abs).sum ≤ mb) :
    ((gemmProducts attrs x w c idx).map abs).sum ≤
      |attrs.alpha.getD 1| * weightSum .gemm attrs (magnitudes w 0) * mx + mb := by
  have hnonneg : 0 ≤ |attrs.alpha.getD 1| := abs_nonneg _
  rw [gemmProducts, map_append, sum_append, abs_sum_scaled]
  refine add_le_add ?_ hbias
  rw [mul_assoc]
  apply mul_le_mul_of_nonneg_left _ hnonneg
  refine (abs_products_le hmx fun k a ha => hx a (NDArray.mem_of_get? ha)).trans ?_
  apply mul_le_mul_of_nonneg_right _ hmx
  simp only [elementAt_magnitudes, weightSum]
  by_cases htrans : isSet attrs.transB
  · simp only [if_pos htrans]
    exact matrix_le (magnitudes_nonneg w 0) (fun k n => [n, k])
      (fun k n hlt => And.symm (lt_of_pair hlt)) _ _
  · simp only [if_neg htrans]
    exact matrix_le (magnitudes_nonneg w 0) (fun k n => [k, n]) (fun k n hlt => lt_of_pair hlt) _ _

theorem gemm_le_depth (hmx : 0 ≤ mx) (hmw : 0 ≤ mw) (hx : ∀ v ∈ x.data, |v - 0| ≤ mx)
    (hw : ∀ v ∈ w.data, |v - 0| ≤ mw) (hbias : ((gemmBias attrs c idx).map abs).sum ≤ mb) :
    ((gemmProducts attrs x w c idx).map abs).sum ≤ |attrs.alpha.getD 1| *
      ((if isSet attrs.transA then x.shape.getD 0 0 else x.shape.getD 1 0 : Nat) : ℚ) * mx * mw + mb := by
  have hnonneg : 0 ≤ |attrs.alpha.getD 1| := abs_nonneg _
  rw [gemmProducts, map_append, sum_append, abs_sum_scaled]
  refine add_le_add ?_ hbias
  rw [mul_assoc, mul_assoc]
  apply mul_le_mul_of_nonneg_left _ hnonneg
  refine (abs_products_le_depth hmx hmw (fun k a ha => hx a (NDArray.mem_of_get? ha))
    fun k b hb => hw b (NDArray.mem_of_get? hb)).trans ?_
  rw [length_range, mul_assoc]

variable {node : Node} {env : String → Option Tensor} {consts : SortedMap String Tensor}
  {result : SortedMap String Enclosure}

theorem operand_inputs (node : Node) (env : String → Option Tensor) (i : Nat) :
    operand (node.inputs.map (valueOf env)) i = valueOf env (inputAt node i) := by
  rw [operand, inputAt, getElem?_map, getD_eq_getElem?_getD]
  cases node.inputs[i]? with
  | none => rfl
  | some x => rfl

theorem zeroPoint_zeros {z : Tensor} (h : ∀ v ∈ z.data, v = 0) (i : Nat) (idx : List Nat) :
    zeroPoint (some z) i idx = 0 := by
  rw [zeroPoint]
  split
  · cases hz : z.data with
    | nil => rfl
    | cons v l => exact h v (hz ▸ mem_cons_self)
  · split
    · rw [getD_eq_getElem?_getD]
      cases hget : z.data[i]? with
      | none => rfl
      | some v => exact h v (mem_of_getElem? hget)
    · cases hget : z.get? (alignIndex z.shape idx) with
      | none => rfl
      | some v => exact h v (NDArray.mem_of_get? hget)

variable {zp v : ℚ} {name : String}

theorem zeroPoint_eq (hconst : ∀ n t, consts.find? n = some t → env n = some t) {i : Option Nat}
    (h : zeroPointOf consts node i = .ok zp) (j : Nat) (idx : List Nat) :
    zeroPoint (operandOf (node.inputs.map (valueOf env)) i) j idx = zp := by
  cases i with
  | none =>
    cases h
    rfl
  | some i =>
    rw [operandOf, bind_some, operand_inputs, valueOf]
    rw [zeroPointOf] at h
    split at h
    · next hempty =>
      cases h
      rw [if_pos hempty]
      rfl
    · next hempty =>
      rw [if_neg hempty]
      cases hfind : consts.find? (inputAt node i) with
      | none =>
        rw [hfind] at h
        cases h
      | some z =>
        rw [hfind] at h
        rw [hconst _ _ hfind]
        dsimp only at h
        split at h
        · next hzero =>
          cases h
          apply zeroPoint_zeros
          intro v hv
          simpa using List.all_eq_true.mp hzero v hv
        · split at h
          · cases h
          · next hone =>
            cases h
            rw [not_not] at hone
            rw [zeroPoint, if_pos hone]

theorem bounded_sound (hknown : Known env result) {b : ℚ × ℚ} (h : bounded result name = .ok b) :
    ∃ t, env name = some t ∧ ∀ v ∈ t.data, b.1 ≤ v ∧ v ≤ b.2 := by
  rw [bounded] at h
  obtain ⟨hull, hhull, h⟩ := bind_eq_ok h
  rw [hullOf] at hhull
  cases hfind : result.find? name with
  | none =>
    rw [hfind] at hhull
    cases hhull
  | some e =>
    rw [hfind] at hhull
    cases hhull
    obtain ⟨t, ht, he⟩ := hknown name e hfind
    refine ⟨t, ht, fun v hv => ?_⟩
    obtain ⟨hlo, hhi⟩ := mem_hull he hv
    cases h₁ : finite? e.hull.1 with
    | none =>
      rw [h₁] at h
      cases h
    | some lo =>
      cases h₂ : finite? e.hull.2 with
      | none =>
        rw [h₁, h₂] at h
        cases h
      | some hi =>
        rw [h₁, h₂] at h
        cases h
        rw [eq_fin_of_finite? h₁, fin_le_fin] at hlo
        rw [eq_fin_of_finite? h₂, fin_le_fin] at hhi
        exact ⟨hlo, hhi⟩

theorem shapeOf_sound (hknown : Known env result) {s : List Nat} (h : shapeOf result name = .ok s) :
    ∃ t, env name = some t ∧ t.shape = s := by
  rw [shapeOf] at h
  split at h
  · next lo hi hfind =>
    cases h
    obtain ⟨t, ht, he⟩ := hknown name _ hfind
    exact ⟨t, ht, he.1.symm⟩
  · cases h

theorem centeredMag_nonneg (lo hi zp : ℚ) : 0 ≤ centeredMag lo hi zp := (abs_nonneg _).trans (le_max_left _ _)

theorem abs_sub_le_centeredMag {lo hi : ℚ} (hlo : lo ≤ v) (hhi : v ≤ hi) : |v - zp| ≤ centeredMag lo hi zp := by
  rw [centeredMag, abs_le]
  constructor
  · have hmag : -(lo - zp) ≤ max |lo - zp| |hi - zp| := (neg_le_abs _).trans (le_max_left _ _)
    linarith
  · have hmag : hi - zp ≤ max |lo - zp| |hi - zp| := (le_abs_self _).trans (le_max_right _ _)
    linarith

theorem gemmScale_nonneg (acc : Accumulating) (attr : Option ℚ) : 0 ≤ gemmScale acc attr := by
  rw [gemmScale]
  split
  · exact abs_nonneg _
  · exact zero_le_one

theorem weightSum_nonneg (acc : Accumulating) (attrs : Attrs) {a : NDArray ℚ} (ha : ∀ v ∈ a.data, 0 ≤ v) :
    0 ≤ weightSum acc attrs a := by
  have hmatrix : 0 ≤ if a.shape.length = 1 then a.data.sum else maxSum (columnSums a) := by
    split
    · exact sum_nonneg ha
    · exact maxSum_nonneg _
  cases acc with
  | gemm =>
    rw [weightSum]
    split
    · exact maxSum_nonneg _
    · exact maxSum_nonneg _
  | conv => exact maxSum_nonneg _
  | convInteger => exact maxSum_nonneg _
  | qLinearConv => exact maxSum_nonneg _
  | matMul => exact hmatrix
  | matMulInteger => exact hmatrix
  | qLinearMatMul => exact hmatrix

variable {acc : Accumulating}

theorem biasBound_nonneg (h : biasBound result acc node = .ok mb) : 0 ≤ mb := by
  rw [biasBound] at h
  split at h
  · cases h
    exact le_rfl
  · split at h
    · cases h
      exact le_rfl
    · obtain ⟨b, -, h⟩ := bind_eq_ok h
      cases h
      exact mul_nonneg (gemmScale_nonneg _ _) ((abs_nonneg _).trans (le_max_left _ _))

theorem bias_le (hknown : Known env result) (h : biasBound result acc node = .ok mb) {c : Tensor}
    (hc : operandOf (node.inputs.map (valueOf env)) (operands acc).bias = some c) (hv : v ∈ c.data) :
    gemmScale acc node.attrs.beta * |v| ≤ mb := by
  rw [biasBound] at h
  cases hi : (operands acc).bias with
  | none =>
    rw [hi] at hc
    cases hc
  | some i =>
    rw [hi] at hc h
    rw [operandOf, bind_some, operand_inputs, valueOf] at hc
    dsimp only at h
    split at h
    · next hempty =>
      rw [if_pos hempty] at hc
      cases hc
    · next hempty =>
      rw [if_neg hempty] at hc
      obtain ⟨b, hb, h⟩ := bind_eq_ok h
      cases h
      obtain ⟨t, ht, hall⟩ := bounded_sound hknown hb
      rw [ht] at hc
      cases hc
      apply mul_le_mul_of_nonneg_left _ (gemmScale_nonneg _ _)
      obtain ⟨hlo, hhi⟩ := hall v hv
      exact abs_le_max_abs_abs hlo hhi

theorem conv_bias_le (hknown : Known env result) (hacc : acc ≠ .gemm) (h : biasBound result acc node = .ok mb)
    (idx : List Nat) :
    ((((operandOf (node.inputs.map (valueOf env)) (operands acc).bias).bind fun b => b.get? idx).toList).map
      abs).sum ≤ mb := by
  cases hread : (operandOf (node.inputs.map (valueOf env)) (operands acc).bias).bind fun b => b.get? idx with
  | none => exact biasBound_nonneg h
  | some v =>
    obtain ⟨c, hc, hv⟩ := bind_eq_some_iff.mp hread
    have hle := bias_le hknown h hc (NDArray.mem_of_get? hv)
    rw [gemmScale, if_neg hacc, one_mul] at hle
    simpa using hle

theorem gemm_bias_le (hknown : Known env result) (h : biasBound result .gemm node = .ok mb) (idx : List Nat) :
    ((gemmBias node.attrs (operandOf (node.inputs.map (valueOf env)) (operands .gemm).bias) idx).map abs).sum ≤
      mb := by
  rw [gemmBias]
  cases hread : (operandOf (node.inputs.map (valueOf env)) (operands .gemm).bias).bind fun c =>
      c.get? (alignIndex c.shape [idx.headD 0, idx.getLastD 0]) with
  | none => exact biasBound_nonneg h
  | some v =>
    obtain ⟨c, hc, hv⟩ := bind_eq_some_iff.mp hread
    have hle := bias_le hknown h hc (NDArray.mem_of_get? hv)
    rw [gemmScale, if_pos rfl] at hle
    simpa [abs_mul] using hle

variable {zw zx b : ℚ} {ins : List (Option Tensor)} {depth : Nat}

theorem productBound_nonneg {p : ℚ} (hmx : 0 ≤ mx) (h : productBound result consts acc node zw mx = .ok p) :
    0 ≤ p := by
  rw [productBound] at h
  split at h
  · cases h
    exact mul_nonneg (mul_nonneg (gemmScale_nonneg _ _) (weightSum_nonneg _ _ (magnitudes_nonneg _ _))) hmx
  · obtain ⟨b, -, h⟩ := bind_eq_ok h
    obtain ⟨depth, -, h⟩ := bind_eq_ok h
    cases h
    have hdepth : (0 : ℚ) ≤ depth := Nat.cast_nonneg depth
    exact mul_nonneg (mul_nonneg (mul_nonneg (gemmScale_nonneg _ _) hdepth) hmx) (centeredMag_nonneg _ _ _)

theorem terms_eq_nil (h : operand ins (operands acc).activation = none ∨ operand ins (operands acc).weight = none)
    (idx : List Nat) :
    terms acc attrs ins idx = [] := by
  rw [terms]
  rcases h with h | h
  · simp only [h]
  · simp only [h]
    cases operand ins (operands acc).activation with
    | none => rfl
    | some x => rfl

theorem valueOf_eq_some {x : String} {t : Tensor} (h : valueOf env x = some t) : env x = some t := by
  rw [valueOf] at h
  split at h
  · cases h
  · exact h

theorem const_terms_le (hx : operand ins (operands acc).activation = some x)
    (hw : operand ins (operands acc).weight = some w)
    (hzx : ∀ i ix, zeroPoint (operandOf ins (operands acc).activationZero) i ix = zx)
    (hzw : ∀ i ix, zeroPoint (operandOf ins (operands acc).weightZero) i ix = zw) (hmx : 0 ≤ mx)
    (hxs : ∀ v ∈ x.data, |v - zx| ≤ mx) (hmb : 0 ≤ mb)
    (hconv : acc ≠ .gemm → ∀ idx, ((((operandOf ins (operands acc).bias).bind fun b => b.get? idx).toList).map
      abs).sum ≤ mb)
    (hgemm : acc = .gemm → ∀ idx, ((gemmBias attrs (operandOf ins (operands .gemm).bias) idx).map abs).sum ≤ mb) :
    ((terms acc attrs ins idx).map abs).sum ≤
      gemmScale acc attrs.alpha * weightSum acc attrs (magnitudes w zw) * mx + mb := by
  simp only [terms, hx, hw]
  have hmatMul : ((matMulProducts x w (operandOf ins (operands acc).activationZero)
      (operandOf ins (operands acc).weightZero) idx).map abs).sum ≤
      (if (magnitudes w zw).shape.length = 1 then (magnitudes w zw).data.sum
        else maxSum (columnSums (magnitudes w zw))) * mx + mb :=
    (matMul_le hzx hzw hmx hxs).trans (le_add_of_nonneg_right hmb)
  have hconvolution (hne : acc ≠ .gemm) : ((convProducts attrs x w (operandOf ins (operands acc).activationZero)
      (operandOf ins (operands acc).weightZero) (operandOf ins (operands acc).bias) idx).map abs).sum ≤
      maxSum (channelSums (magnitudes w zw)) * mx + mb := conv_le hzx hzw hmx hxs (hconv hne _)
  cases acc with
  | gemm =>
    cases hzx 0 []
    cases hzw 0 []
    exact gemm_le hmx hxs (hgemm rfl idx)
  | conv => simpa [gemmScale, weightSum] using hconvolution (by decide)
  | convInteger => simpa [gemmScale, weightSum] using hconvolution (by decide)
  | qLinearConv => simpa [gemmScale, weightSum] using hconvolution (by decide)
  | matMul => simpa [gemmScale, weightSum] using hmatMul
  | matMulInteger => simpa [gemmScale, weightSum] using hmatMul
  | qLinearMatMul => simpa [gemmScale, weightSum] using hmatMul

def reduction (acc : Accumulating) (attrs : Attrs) (xShape wShape : List Nat) : Nat :=
  match acc with
  | .gemm => if isSet attrs.transA then xShape.getD 0 0 else xShape.getD 1 0
  | .conv | .convInteger | .qLinearConv => (wShape.drop 1).prod
  | .matMul | .matMulInteger | .qLinearMatMul => xShape.getLastD 0

theorem depth_eq (hknown : Known env result)
    (hx : operand (node.inputs.map (valueOf env)) (operands acc).activation = some x)
    (hw : operand (node.inputs.map (valueOf env)) (operands acc).weight = some w)
    (h : depthOf result acc node = .ok depth) : depth = reduction acc node.attrs x.shape w.shape := by
  rw [operand_inputs] at hx hw
  have hact {s : List Nat} (hs : shapeOf result (inputAt node (operands acc).activation) = .ok s) : s = x.shape := by
    obtain ⟨t, ht, hshape⟩ := shapeOf_sound hknown hs
    rw [valueOf_eq_some hx] at ht
    cases ht
    exact hshape.symm
  have hweight {s : List Nat} (hs : shapeOf result (inputAt node (operands acc).weight) = .ok s) : s = w.shape := by
    obtain ⟨t, ht, hshape⟩ := shapeOf_sound hknown hs
    rw [valueOf_eq_some hw] at ht
    cases ht
    exact hshape.symm
  cases acc <;> obtain ⟨s, hs, h⟩ := bind_eq_ok h <;> cases h
  case gemm | matMul | matMulInteger | qLinearMatMul => rw [hact hs]; rfl
  case conv | convInteger | qLinearConv => rw [hweight hs]; rfl

theorem depth_terms_le {mw : ℚ} (hx : operand ins (operands acc).activation = some x)
    (hw : operand ins (operands acc).weight = some w)
    (hzx : ∀ i ix, zeroPoint (operandOf ins (operands acc).activationZero) i ix = zx)
    (hzw : ∀ i ix, zeroPoint (operandOf ins (operands acc).weightZero) i ix = zw) (hmx : 0 ≤ mx) (hmw : 0 ≤ mw)
    (hxs : ∀ v ∈ x.data, |v - zx| ≤ mx) (hws : ∀ v ∈ w.data, |v - zw| ≤ mw) (hmb : 0 ≤ mb)
    (hconv : acc ≠ .gemm → ∀ idx, ((((operandOf ins (operands acc).bias).bind fun b => b.get? idx).toList).map
      abs).sum ≤ mb)
    (hgemm : acc = .gemm → ∀ idx, ((gemmBias attrs (operandOf ins (operands .gemm).bias) idx).map abs).sum ≤ mb)
    (hdepth : depth = reduction acc attrs x.shape w.shape) :
    ((terms acc attrs ins idx).map abs).sum ≤ gemmScale acc attrs.alpha * depth * mx * mw + mb := by
  simp only [terms, hx, hw]
  subst hdepth
  have hmatMul : ((matMulProducts x w (operandOf ins (operands acc).activationZero)
      (operandOf ins (operands acc).weightZero) idx).map abs).sum ≤ (x.shape.getLastD 0 : Nat) * mx * mw + mb :=
    (matMul_le_depth hzx hzw hmx hmw hxs hws).trans (le_add_of_nonneg_right hmb)
  have hconvolution (hne : acc ≠ .gemm) : ((convProducts attrs x w (operandOf ins (operands acc).activationZero)
      (operandOf ins (operands acc).weightZero) (operandOf ins (operands acc).bias) idx).map abs).sum ≤
      ((w.shape.drop 1).prod : Nat) * mx * mw + mb := conv_le_depth hzx hzw hmx hmw hxs hws (hconv hne _)
  cases acc with
  | gemm =>
    cases hzx 0 []
    cases hzw 0 []
    exact gemm_le_depth hmx hmw hxs hws (hgemm rfl idx)
  | conv => simpa [gemmScale, reduction] using hconvolution (by decide)
  | convInteger => simpa [gemmScale, reduction] using hconvolution (by decide)
  | qLinearConv => simpa [gemmScale, reduction] using hconvolution (by decide)
  | matMul => simpa [gemmScale, reduction] using hmatMul
  | matMulInteger => simpa [gemmScale, reduction] using hmatMul
  | qLinearMatMul => simpa [gemmScale, reduction] using hmatMul

theorem abs_terms_le (hconst : ∀ n t, consts.find? n = some t → env n = some t) (hknown : Known env result)
    (h : accumulatorBound result consts acc node = .ok b) (idx : List Nat) :
    ((terms acc node.attrs (node.inputs.map (valueOf env)) idx).map abs).sum ≤ b := by
  obtain ⟨zx, hzx, h⟩ := bind_eq_ok h
  obtain ⟨zw, hzw, h⟩ := bind_eq_ok h
  obtain ⟨bx, hbx, h⟩ := bind_eq_ok h
  obtain ⟨p, hp, h⟩ := bind_eq_ok h
  obtain ⟨mb, hmb, h⟩ := bind_eq_ok h
  cases h
  have hmx := centeredMag_nonneg bx.1 bx.2 zx
  have hzero : 0 ≤ p + mb := add_nonneg (productBound_nonneg hmx hp) (biasBound_nonneg hmb)
  cases hx : operand (node.inputs.map (valueOf env)) (operands acc).activation with
  | none =>
    rw [terms_eq_nil (.inl hx)]
    exact hzero
  | some x =>
    cases hw : operand (node.inputs.map (valueOf env)) (operands acc).weight with
    | none =>
      rw [terms_eq_nil (.inr hw)]
      exact hzero
    | some w =>
      have hxs : ∀ v ∈ x.data, |v - zx| ≤ centeredMag bx.1 bx.2 zx := by
        obtain ⟨t, ht, hall⟩ := bounded_sound hknown hbx
        have hxt := valueOf_eq_some ((operand_inputs node env _).symm.trans hx)
        rw [ht] at hxt
        cases hxt
        exact fun v hv => abs_sub_le_centeredMag (hall v hv).1 (hall v hv).2
      have hconv : acc ≠ .gemm → ∀ idx, ((((operandOf (node.inputs.map (valueOf env)) (operands acc).bias).bind
          fun b => b.get? idx).toList).map abs).sum ≤ mb := fun hne => conv_bias_le hknown hne hmb
      have hgemm : acc = .gemm → ∀ idx, ((gemmBias node.attrs (operandOf (node.inputs.map (valueOf env))
          (operands .gemm).bias) idx).map abs).sum ≤ mb := by
        rintro rfl
        exact gemm_bias_le hknown hmb
      have hwenv := valueOf_eq_some ((operand_inputs node env _).symm.trans hw)
      rw [productBound] at hp
      cases hfind : consts.find? (inputAt node (operands acc).weight) with
      | some t =>
        rw [hfind] at hp
        cases hp
        have htw : t = w := Option.some.inj ((hconst _ _ hfind).symm.trans hwenv)
        subst htw
        exact const_terms_le hx hw (zeroPoint_eq hconst hzx) (zeroPoint_eq hconst hzw) hmx hxs
          (biasBound_nonneg hmb) hconv hgemm
      | none =>
        rw [hfind] at hp
        obtain ⟨bw, hbw, hp⟩ := bind_eq_ok hp
        obtain ⟨depth, hdepth, hp⟩ := bind_eq_ok hp
        cases hp
        have hws : ∀ v ∈ w.data, |v - zw| ≤ centeredMag bw.1 bw.2 zw := by
          obtain ⟨t, ht, hall⟩ := bounded_sound hknown hbw
          rw [hwenv] at ht
          cases ht
          exact fun v hv => abs_sub_le_centeredMag (hall v hv).1 (hall v hv).2
        exact depth_terms_le hx hw (zeroPoint_eq hconst hzx) (zeroPoint_eq hconst hzw) hmx
          (centeredMag_nonneg _ _ _) hxs hws (biasBound_nonneg hmb) hconv hgemm (depth_eq hknown hx hw hdepth)

theorem abs_partialSum_le (hconst : ∀ n t, consts.find? n = some t → env n = some t) (hknown : Known env result)
    (h : accumulatorBound result consts acc node = .ok b) {l : List ℚ}
    (hl : l.Subperm (terms acc node.attrs (node.inputs.map (valueOf env)) idx)) : |l.sum| ≤ b :=
  (abs_sum_le_of_subperm hl).trans (abs_terms_le hconst hknown h idx)

end Onnxsim.Overflow.AccumulatorSound
