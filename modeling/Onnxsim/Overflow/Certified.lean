import Onnxsim.Overflow.AccumulatorSound

namespace Onnxsim.Overflow.Certified

open List Lib.OrderedMaps Lib.Results
open Arrays Operators Intervals
open Certificate AccumulatorSound

section

def InWindow (w : Window) (v : ℚ) : Prop := (w.lo : ℚ) ≤ v ∧ v ≤ w.hi

def tensorNames (m : Model) : List String :=
  (m.inputs.map GraphInput.name ++ m.nodes.flatMap fun node => node.inputs ++ node.outputs).filter fun n => n ≠ ""

variable (m : Model) (w : Window) (field : Bool) (env : String → Option Tensor)

def TensorsFit (names : List String) : Prop :=
  ∀ n ∈ names, inScope field m.elem n = true → ∀ t, env n = some t → ∀ v ∈ t.data, InWindow w v

/-- Every cast to a type of `types` receives values of its range. -/
def CastsFit (types : DataType → Prop) : Prop :=
  ∀ node ∈ m.nodes, node.opType = "Cast" → types (node.attrs.castTo.getD .undefined) →
    ∀ range, integerRange (node.attrs.castTo.getD .undefined) = some range →
      ∀ t, valueOf env (inputAt node 0) = some t → ∀ v ∈ t.data, (range.1 : ℚ) ≤ v ∧ v ≤ range.2

/-- A run that stays inside the window, its accumulators in every order of accumulation. -/
structure Safe : Prop where
  tensors : TensorsFit m w field env (tensorNames m)
  accumulators : ∀ node ∈ m.nodes, ∀ acc, checkedAccumulator field m.elem node = some acc →
    ∀ t, env (outputAt node 0) = some t → ∀ idx ∈ indices t.shape,
      ∀ l : List ℚ, l.Subperm (terms acc node.attrs (node.inputs.map (valueOf env)) idx) → InWindow w l.sum
  casts : CastsFit m env fun _ => True

/-- What no node produces: graph inputs, and the initializers that nodes read. -/
def sourceNames : List String :=
  (tensorNames m).filter fun n => n ∉ m.nodes.flatMap Node.outputs

structure SourcesFit : Prop where
  tensors : TensorsFit m w field env (sourceNames m)
  casts : CastsFit m env fun t => t = .int4 ∨ t = .uint4

end

variable {v q : ℚ} {b : ℚ × ℚ} {o : String} {α : Type}

section

variable {c : Context} {name : String} {node : Node} {r : OverflowReport}

def Clean (r : OverflowReport) : Prop := r.fits = true

theorem clean_iff : Clean r ↔ (∀ f ∈ r.findings, f.fits = true) ∧ r.unanalysed = [] := by
  rw [Clean, OverflowReport.fits, OverflowReport.violations, Bool.and_eq_true, List.isEmpty_iff, List.isEmpty_iff,
    filter_eq_nil_iff]
  simp

theorem clean_addFinding {f : OverflowFinding} : Clean (addFinding f r) ↔ Clean r ∧ f.fits = true := by
  rw [clean_iff, clean_iff]
  simp only [addFinding, mem_append, mem_singleton, or_imp, forall_and, forall_eq]
  exact and_right_comm

theorem not_clean_addUnanalysed {reason : String} : ¬ Clean (addUnanalysed name reason r) := by
  rw [clean_iff]
  rintro ⟨-, hnil⟩
  rw [addUnanalysed] at hnil
  split at hnil
  · next hmem =>
    rw [hnil] at hmem
    cases hmem
  · simp at hnil

def FitsIn (w : Window) (b : ℚ × ℚ) : Prop := w.lo ≤ ⌊b.1⌋ ∧ ⌈b.2⌉ ≤ w.hi

theorem finding_fits {tensor : String} {kind : Kind} {lo hi : ℚ} {w : Window} :
    (finding name tensor kind lo hi w).fits = true ↔ FitsIn w (lo, hi) := by
  rw [finding, FitsIn, Bool.and_eq_true, decide_eq_true_eq, decide_eq_true_eq]

theorem FitsIn.inWindow {w : Window} (h : FitsIn w b) (hlo : b.1 ≤ v) (hhi : v ≤ b.2) : InWindow w v := by
  constructor
  · have hfloor : (w.lo : ℚ) ≤ (⌊b.1⌋ : ℤ) := Int.cast_le.mpr h.1
    exact hfloor.trans ((Int.floor_le b.1).trans hlo)
  · have hceil : ((⌈b.2⌉ : ℤ) : ℚ) ≤ w.hi := Int.cast_le.mpr h.2
    exact hhi.trans ((Int.le_ceil b.2).trans hceil)

theorem castStep_clean (h : Clean (castStep c name node r)) : Clean r ∧ ∀ range, castTarget node = some range →
    ∃ b, bounded c.result (inputAt node 0) = .ok b ∧ FitsIn ⟨"", range.1, range.2⟩ b ∧
      (c.inScope (outputAt node 0) = true → FitsIn c.window b) := by
  rw [castStep] at h
  cases ht : castTarget node with
  | none =>
    rw [ht] at h
    exact ⟨h, fun range hrange => by cases hrange⟩
  | some range =>
    rw [ht] at h
    cases hb : bounded c.result (inputAt node 0) with
    | error reason =>
      rw [hb] at h
      exact absurd h not_clean_addUnanalysed
    | ok b =>
      rw [hb] at h
      dsimp only at h
      by_cases hscope : c.inScope (outputAt node 0) = true
      · rw [if_pos hscope, clean_addFinding, clean_addFinding, finding_fits, finding_fits] at h
        refine ⟨h.1.1, fun range' hrange => ?_⟩
        cases hrange
        exact ⟨b, rfl, h.1.2, fun _ => h.2⟩
      · rw [if_neg hscope, clean_addFinding, finding_fits] at h
        refine ⟨h.1, fun range' hrange => ?_⟩
        cases hrange
        exact ⟨b, rfl, h.2, fun hs => absurd hs hscope⟩

theorem accumulatorStep_clean (h : Clean (accumulatorStep c name node r)) :
    Clean r ∧ ∀ acc, checkedAccumulator c.field c.elem node = some acc →
      ∃ b, accumulatorBound c.result c.consts acc node = .ok b ∧ FitsIn c.window (-b, b) := by
  rw [accumulatorStep] at h
  cases hacc : checkedAccumulator c.field c.elem node with
  | none =>
    rw [hacc] at h
    exact ⟨h, fun acc hsome => by cases hsome⟩
  | some acc =>
    rw [hacc] at h
    dsimp only at h
    cases hb : accumulatorBound c.result c.consts acc node with
    | error reason =>
      rw [hb] at h
      exact absurd h not_clean_addUnanalysed
    | ok b =>
      rw [hb] at h
      rw [clean_addFinding, finding_fits] at h
      refine ⟨h.1, fun acc' hsome => ?_⟩
      cases hsome
      exact ⟨b, hb, h.2⟩

theorem outputStep_clean (h : Clean (outputStep c name r o)) :
    Clean r ∧ (o ≠ "" → c.inScope o = true → ∃ b, bounded c.result o = .ok b ∧ FitsIn c.window b) := by
  rw [outputStep] at h
  split at h
  · next hskip =>
    refine ⟨h, fun hne hscope => ?_⟩
    simp [hne, hscope] at hskip
  · cases hb : bounded c.result o with
    | error reason =>
      rw [hb] at h
      exact absurd h not_clean_addUnanalysed
    | ok b =>
      rw [hb] at h
      rw [clean_addFinding, finding_fits] at h
      exact ⟨h.1, fun _ _ => ⟨b, rfl, h.2⟩⟩

theorem clean_foldl {f : OverflowReport → α → OverflowReport} {P : α → Prop}
    (hstep : ∀ r a, Clean (f r a) → Clean r ∧ P a) {l : List α} (h : Clean (l.foldl f r)) :
    Clean r ∧ ∀ a ∈ l, P a := by
  induction l generalizing r with
  | nil => exact ⟨h, by simp⟩
  | cons a l ih =>
    obtain ⟨hmid, hrest⟩ := ih h
    obtain ⟨hr, ha⟩ := hstep r a hmid
    exact ⟨hr, forall_mem_cons.mpr ⟨ha, hrest⟩⟩

/-- What the checks of one node establish when they find nothing. -/
structure Checked (c : Context) (node : Node) : Prop where
  cast : ∀ range, castTarget node = some range → ∃ b, bounded c.result (inputAt node 0) = .ok b ∧
    FitsIn ⟨"", range.1, range.2⟩ b ∧ (c.inScope (outputAt node 0) = true → FitsIn c.window b)
  accumulator : ∀ acc, checkedAccumulator c.field c.elem node = some acc →
    ∃ b, accumulatorBound c.result c.consts acc node = .ok b ∧ FitsIn c.window (-b, b)
  outputs : covered node = false → ∀ o ∈ node.outputs, o ≠ "" → c.inScope o = true →
    ∃ b, bounded c.result o = .ok b ∧ FitsIn c.window b

theorem nodeStep_clean {e : Node × Nat} (h : Clean (nodeStep c r e)) : Clean r ∧ Checked c e.1 := by
  rw [nodeStep] at h
  cases hcov : covered e.1 with
  | true =>
    rw [hcov, if_pos rfl] at h
    obtain ⟨h, hacc⟩ := accumulatorStep_clean h
    obtain ⟨h, hcast⟩ := castStep_clean h
    exact ⟨h, hcast, hacc, fun hfalse => by rw [hcov] at hfalse; cases hfalse⟩
  | false =>
    rw [hcov, if_neg Bool.false_ne_true] at h
    obtain ⟨h, houts⟩ := clean_foldl (f := outputStep c (nodeName e.1 e.2)) (fun r o ho => outputStep_clean ho) h
    obtain ⟨h, hacc⟩ := accumulatorStep_clean h
    obtain ⟨h, hcast⟩ := castStep_clean h
    exact ⟨h, hcast, hacc, fun _ => houts⟩

end

section

variable {other : Node → List (Option Tensor) → List Tensor} {m : Model} {env : String → Option Tensor} {c : Context}
  {node : Node} {r : Int × Int}

theorem integerRange_of_native {t : DataType} (h : native t = some r) : integerRange t = some r := by
  cases t <;> first | exact h | cases h

theorem four_bits {t : DataType} (hnative : native t = none) (h : integerRange t = some r) :
    t = .int4 ∨ t = .uint4 := by
  cases t with
  | int4 => exact .inl rfl
  | uint4 => exact .inr rfl
  | _ =>
    have hnone := h.symm.trans hnative
    cases hnone

theorem castTarget_cases (h : castTarget node = some r) :
    node.opType = "Cast" ∧ inputAt node 0 ≠ "" ∧ native (node.attrs.castTo.getD .undefined) = some r := by
  rw [castTarget] at h
  split at h
  · next hcond => exact ⟨hcond.1, hcond.2, h⟩
  · cases h

theorem trunc_fits {w : Window} (h : FitsIn w b) (hlo : b.1 ≤ q) (hhi : q ≤ b.2) : InWindow w (trunc q : ℤ) := by
  have hbounds : ⌊q⌋ ≤ trunc q ∧ trunc q ≤ ⌈q⌉ := by
    rw [trunc]
    split
    · exact ⟨le_rfl, Int.floor_le_ceil q⟩
    · exact ⟨Int.floor_le_ceil q, le_rfl⟩
  have hleft : w.lo ≤ trunc q := h.1.trans ((Int.floor_mono hlo).trans hbounds.1)
  have hright : trunc q ≤ w.hi := hbounds.2.trans ((Int.ceil_mono hhi).trans h.2)
  exact ⟨Int.cast_le.mpr hleft, Int.cast_le.mpr hright⟩

variable {k : Nat} {t : Tensor}

theorem eq_zero_of_getElem?_singleton {a b : α} (h : [a][k]? = some b) : k = 0 ∧ a = b := by
  cases k with
  | zero => exact ⟨rfl, Option.some.inj h⟩
  | succ k => simp at h

theorem outputAt_zero (h : node.outputs[0]? = some o) : outputAt node 0 = o := by
  rw [outputAt, getD_eq_getElem?_getD, h, Option.getD_some]

theorem cast_output_fits (hknown : Known env c.result) (hchecked : Checked c node) (hr : castTarget node = some r)
    (ho : node.outputs[k]? = some o) (hscope : c.inScope o = true)
    (ht : (eval other node (node.inputs.map (valueOf env)))[k]? = some t) : ∀ v ∈ t.data, InWindow c.window v := by
  obtain ⟨hop, -, hnative⟩ := castTarget_cases hr
  obtain ⟨b, hb, -, hwindow⟩ := hchecked.cast r hr
  have hcast : node.opType = "Cast" ∧ (integerRange (node.attrs.castTo.getD .undefined)).isSome = true := by
    rw [integerRange_of_native hnative]
    exact ⟨hop, rfl⟩
  rw [eval, if_pos hcast, operand_inputs] at ht
  obtain ⟨x, hx, hall⟩ := bounded_sound hknown hb
  cases hval : valueOf env (inputAt node 0) with
  | none =>
    rw [hval] at ht
    cases ht
  | some y =>
    have hyx := valueOf_eq_some hval
    rw [hx] at hyx
    cases hyx
    rw [hval] at ht
    obtain ⟨rfl, rfl⟩ := eq_zero_of_getElem?_singleton ht
    intro v hv
    obtain ⟨q, hq, rfl⟩ := List.mem_map.mp hv
    have hfit := hwindow (outputAt_zero ho ▸ hscope)
    exact trunc_fits hfit (hall q hq).1 (hall q hq).2

theorem sum_output_fits (hconst : ∀ n t, c.consts.find? n = some t → env n = some t) (hknown : Known env c.result)
    (hchecked : Checked c node) {acc : Accumulating} {shape : List Nat}
    (hacc : checkedAccumulator c.field c.elem node = some acc) {v : ℚ}
    (hv : v ∈ (NDArray.ofFn shape fun idx => (terms acc node.attrs (node.inputs.map (valueOf env)) idx).sum).data) :
    InWindow c.window v := by
  obtain ⟨b, hb, hfit⟩ := hchecked.accumulator acc hacc
  obtain ⟨idx, -, rfl⟩ := NDArray.mem_ofFn.mp hv
  have hle := abs_partialSum_le hconst hknown hb (List.Subperm.refl (terms acc node.attrs _ idx))
  exact hfit.inWindow (abs_le.mp hle).1 (abs_le.mp hle).2

theorem output_fits (hrun : Runs other m env) (hnode : node ∈ m.nodes)
    (hconst : ∀ n t, c.consts.find? n = some t → env n = some t) (hknown : Known env c.result)
    (hchecked : Checked c node) (ho : o ∈ node.outputs) (hne : o ≠ "") (hscope : c.inScope o = true)
    (ht : env o = some t) : ∀ v ∈ t.data, InWindow c.window v := by
  obtain ⟨k, hk⟩ := mem_iff_getElem?.mp ho
  have heval := (hrun.nodes node hnode k o hk hne).symm.trans ht
  have hzero (hk0 : k = 0) : outputAt node 0 ≠ "" := by
    subst hk0
    rw [outputAt_zero hk]
    exact hne
  cases hcov : covered node with
  | false =>
    obtain ⟨b, hb, hfit⟩ := hchecked.outputs hcov o ho hne hscope
    obtain ⟨t', ht', hall⟩ := bounded_sound hknown hb
    rw [ht] at ht'
    cases ht'
    exact fun v hv => hfit.inWindow (hall v hv).1 (hall v hv).2
  | true =>
    rw [covered, Bool.or_eq_true, Bool.or_eq_true, decide_eq_true_eq, decide_eq_true_eq] at hcov
    rcases hcov with hop | hcast
    · have hnot : ¬ (node.opType = "Cast" ∧ (integerRange (node.attrs.castTo.getD .undefined)).isSome = true) := by
        rintro ⟨hcast, -⟩
        rw [hcast] at hop
        exact absurd hop (by decide)
      have hacc : accumulating node.opType = some .matMulInteger ∨ accumulating node.opType = some .convInteger :=
        hop.imp (fun hop => by rw [hop]; rfl) fun hop => by rw [hop]; rfl
      rcases hacc with hacc | hacc
      all_goals
        rw [eval, if_neg hnot, hacc] at heval
        obtain ⟨hk0, rfl⟩ := eq_zero_of_getElem?_singleton heval
        apply sum_output_fits hconst hknown hchecked
        rw [checkedAccumulator, hacc]
        simp [hzero hk0, Accumulating.isInteger]
    · obtain ⟨r, hr⟩ := Option.isSome_iff_exists.mp hcast
      exact cast_output_fits hknown hchecked hr hk hscope heval

theorem cast_fits (hknown : Known env c.result) (hchecked : Checked c node) (hr : castTarget node = some r)
    (ht : valueOf env (inputAt node 0) = some t) (hv : v ∈ t.data) :
    (r.1 : ℚ) ≤ v ∧ v ≤ r.2 := by
  obtain ⟨b, hb, hfit, -⟩ := hchecked.cast r hr
  obtain ⟨x, hx, hall⟩ := bounded_sound hknown hb
  have hxt := valueOf_eq_some ht
  rw [hx] at hxt
  cases hxt
  exact hfit.inWindow (hall v hv).1 (hall v hv).2

end

section

variable {other : Node → List (Option Tensor) → List Tensor} {rule : Rule} {m : Model} {env : String → Option Tensor}
  {inputRanges : SortedMap String Range} {bits fieldModulus : Option Int} {report : OverflowReport}

theorem certify_cases (h : certifyNoOverflow rule m inputRanges bits fieldModulus = .ok report)
    (hfits : report.fits = true) : ∃ w result, window bits fieldModulus = .ok w ∧
      propagate rule m (feeds m inputRanges) = .ok result ∧
      ∀ node ∈ m.nodes, Checked ⟨w, fieldModulus.isSome, m.elem, result, m.consts⟩ node := by
  obtain ⟨w, hw, h⟩ := bind_eq_ok h
  obtain ⟨result, hresult, h⟩ := bind_eq_ok h
  cases h
  refine ⟨w, result, hw, hresult, fun node hnode => ?_⟩
  obtain ⟨k, hk⟩ := mem_iff_getElem?.mp hnode
  have hall := (clean_foldl (f := nodeStep ⟨w, fieldModulus.isSome, m.elem, result, m.consts⟩)
    (fun r e he => nodeStep_clean he) hfits).2
  exact hall (node, k) (mem_zipIdx_iff_getElem?.mpr hk)

end

open ShapeRanges.Dims

def single (q : ℚ) : Tensor := ⟨[1], [q], rfl⟩

def rowModel : Model where
  nodes := [⟨"", "MatMulInteger", ["x", "W"], ["y"], noAttrs⟩]
  initializers := [("W", ⟨[2, 1], [1, -2], rfl⟩)]
  inputs := [⟨"x", some [exact 1, exact 2]⟩]
  annotated := .empty
  elem n := some (if n = "y" then .int32 else .int8)
  inferred n := if n = "x" then some [1, 2] else none

def rowEnv (n : String) : Option Tensor :=
  if n = "x" then some ⟨[1, 2], [3, 4], rfl⟩
  else if n = "W" then some ⟨[2, 1], [1, -2], rfl⟩
  else if n = "y" then some ⟨[1, 1], [-5], rfl⟩
  else none

def unboundedRule : Rule := fun _ _ _ =>
  ([some (.static (.full [1, 1] ⊥) (.full [1, 1] ((⊤ : WithTop ℚ) : Ext)))], false)

def noOther (_ : Node) (_ : List (Option Tensor)) : List Tensor := []

theorem rowEnv_runs : Runs noOther rowModel rowEnv where
  consts n t h := by
    have hmem := SortedMap.mem_of_find?_ofList h
    cases mem_singleton.mp hmem
    rfl
  nodes node hnode k o ho hne := by
    cases mem_singleton.mp hnode
    obtain ⟨rfl, rfl⟩ := eq_zero_of_getElem?_singleton ho
    decide +kernel

theorem rowEnv_inBox : InBox rowModel (feeds rowModel .empty) rowEnv := by
  intro vi hvi _
  cases mem_singleton.mp hvi
  refine ⟨⟨[1, 2], [3, 4], rfl⟩, rfl, fun d hd => ?_, fun s hs => ?_, ⟨[1, 2], [fin (-128), fin (-128)], rfl⟩,
    ⟨[1, 2], [fin 127, fin 127], rfl⟩, by decide, by decide, ?_⟩
  · cases hd
    exact .cons rfl (.cons rfl .nil)
  · cases hs
    rfl
  · rw [Within]
    decide

theorem rowEnv_exact : ExactRules noOther unboundedRule rowModel rowEnv := by
  intro node hnode derived ins _ k e he
  cases mem_singleton.mp hnode
  obtain ⟨rfl, heq⟩ := eq_zero_of_getElem?_singleton he
  cases heq
  refine ⟨⟨[1, 1], [-5], rfl⟩, by decide +kernel, rfl, ?_, ?_⟩
  · exact .cons bot_le .nil
  · exact .cons le_top .nil

theorem exists_certificate {rule : Rule} {m : Model} {inputRanges : SortedMap String Range}
    {bits fieldModulus : Option Int}
    (h : ((certifyNoOverflow rule m inputRanges bits fieldModulus).toOption.any fun r => r.fits) = true) :
    ∃ report, certifyNoOverflow rule m inputRanges bits fieldModulus = .ok report ∧ report.fits = true := by
  cases hcert : certifyNoOverflow rule m inputRanges bits fieldModulus with
  | error e =>
    rw [hcert] at h
    cases h
  | ok report =>
    rw [hcert] at h
    exact ⟨report, rfl, h⟩

theorem window_word : window (some 32) none = .ok ⟨"int32", -2147483648, 2147483647⟩ := rfl

theorem rowEnv_sources : SourcesFit rowModel ⟨"int32", -2147483648, 2147483647⟩ false rowEnv where
  tensors n hn _ t ht v hv := by
    have hnames : sourceNames rowModel = ["x", "x", "W"] := by decide
    rw [hnames] at hn
    have hbytes : v = 3 ∨ v = 4 ∨ v = 1 ∨ v = -2 := by
      simp only [mem_cons, not_mem_nil, or_false] at hn
      rcases hn with rfl | rfl | rfl <;> cases ht <;> simpa [or_assoc] using (mem_pair.mp hv).elim
        (fun h => by simp [h]) (fun h => by simp [h])
    rcases hbytes with rfl | rfl | rfl | rfl <;> constructor <;> norm_num
  casts node hnode hop := by
    cases mem_singleton.mp hnode
    exact absurd hop (by decide)

def minModel : Model where
  nodes := [⟨"", "Min", ["x", "c"], ["y"], noAttrs⟩]
  initializers := [("c", single 10)]
  inputs := [⟨"x", some [exact 1]⟩]
  annotated := .empty
  elem _ := some .int64
  inferred n := if n = "x" then some [1] else none

/-- The box of the input, which reaches past a word of 32 bits. -/
def wideRange : SortedMap String Range := .ofList [("x", (scalar (fin 0), scalar (fin 1099511627776)))]

def minEnv (n : String) : Option Tensor :=
  if n = "x" then some (single 1099511627776) else if n = "c" ∨ n = "y" then some (single 10) else none

def minOf (a b : NDArray Ext) : NDArray Ext := ⟨[1], [min (a.data.headD ⊥) (b.data.headD ⊥)], rfl⟩

/-- The bounds of the minimum are the minima of the bounds. -/
def minRule : Rule := fun _ _ ins =>
  match ins with
  | [some (.static a b), some (.static c d)] => ([some (.static (minOf a c) (minOf b d))], false)
  | _ => ([none], false)

def minOther (_ : Node) (ins : List (Option Tensor)) : List Tensor :=
  match ins with
  | [some x, some c] => [single (min (x.data.headD 0) (c.data.headD 0))]
  | _ => []

theorem minEnv_runs : Runs minOther minModel minEnv where
  consts n t h := by
    have hmem := SortedMap.mem_of_find?_ofList h
    cases mem_singleton.mp hmem
    rfl
  nodes node hnode k o ho hne := by
    cases mem_singleton.mp hnode
    obtain ⟨rfl, rfl⟩ := eq_zero_of_getElem?_singleton ho
    decide

theorem minEnv_inBox : InBox minModel (feeds minModel wideRange) minEnv := by
  intro vi hvi _
  cases mem_singleton.mp hvi
  refine ⟨single 1099511627776, rfl, fun d hd => ?_, fun s hs => ?_, ⟨[1], [fin 0], rfl⟩,
    ⟨[1], [fin 1099511627776], rfl⟩, by decide, by decide, ?_⟩
  · cases hd
    exact .cons rfl .nil
  · cases hs
    rfl
  · rw [Within]
    decide

theorem head_le {lo : NDArray Ext} (h : List.Forall₂ (fun l v => l ≤ fin v) lo.data [q]) :
    lo.data.headD ⊥ ≤ fin q := by
  cases hl : lo.data with
  | nil => exact bot_le
  | cons l ls =>
    rw [hl] at h
    cases h with
    | cons hle _ => exact hle

theorem le_head {hi : NDArray Ext} (h : List.Forall₂ (fun v u => fin v ≤ u) [q] hi.data) :
    fin q ≤ hi.data.headD ⊥ := by
  cases hu : hi.data with
  | nil =>
    rw [hu] at h
    cases h
  | cons u us =>
    rw [hu] at h
    cases h with
    | cons hle _ => exact hle

theorem minRule_exact : ExactRules minOther minRule minModel minEnv := by
  intro node hnode derived ins hins k e he
  cases mem_singleton.mp hnode
  have hvals : List.Forall₂ EnclosesInput ins [some (single 1099511627776), some (single 10)] := hins
  refine ⟨single 10, ?_⟩
  cases hvals with
  | cons hx hrest =>
    cases hrest with
    | cons hc hnil =>
      cases hnil
      next ex ec =>
      cases ex with
      | none =>
        obtain ⟨-, heq⟩ := eq_zero_of_getElem?_singleton he
        cases heq
      | some ex =>
        cases ec with
        | none =>
          cases ex <;>
          · obtain ⟨-, heq⟩ := eq_zero_of_getElem?_singleton he
            cases heq
        | some ec =>
          cases ex with
          | ranged shape hull =>
            cases ec <;>
            · obtain ⟨-, heq⟩ := eq_zero_of_getElem?_singleton he
              cases heq
          | static a b =>
            cases ec with
            | ranged shape hull =>
              obtain ⟨-, heq⟩ := eq_zero_of_getElem?_singleton he
              cases heq
            | static c d =>
              obtain ⟨rfl, heq⟩ := eq_zero_of_getElem?_singleton he
              cases heq
              refine ⟨by decide, rfl, .cons ?_ .nil, .cons ?_ .nil⟩
              · exact (min_le_right _ _).trans (head_le hc.2.1)
              · have hle : fin 10 ≤ fin 1099511627776 := fin_le_fin.mpr (by norm_num)
                exact le_min (hle.trans (le_head hx.2.2)) (le_head hc.2.2)

end Onnxsim.Overflow.Certified
