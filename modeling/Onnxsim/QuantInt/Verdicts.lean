import Onnxsim.QuantInt.Counterexamples

namespace Onnxsim.QuantInt.Verdicts

open List Option Lib.Wrapping Overflow.Arrays Layers NoWrap
open Accumulators Extraction Bounds
open Counterexamples

section

variable {xs : List Int} {i : Nat} {v : Int}

theorem argmax_eq_none (h : argmax xs = none) : xs = [] := by
  cases xs with
  | nil => rfl
  | cons x xs =>
    rw [NoWrap.argmax] at h
    split at h
    · cases h
    · split at h <;> cases h

theorem argmax_eq_some (h : argmax xs = some (i, v)) : xs[i]? = some v ∧ ∀ x ∈ xs, x ≤ v := by
  induction xs generalizing i v with
  | nil => cases h
  | cons x xs ih =>
    rw [NoWrap.argmax] at h
    split at h
    · next hnone =>
      cases h
      rw [argmax_eq_none hnone]
      exact ⟨rfl, by simp⟩
    · next j y hsome =>
      obtain ⟨hget, hle⟩ := ih hsome
      split at h
      · next hlt =>
        cases h
        exact ⟨hget, forall_mem_cons.mpr ⟨hlt.le, hle⟩⟩
      · next hge =>
        cases h
        refine ⟨rfl, forall_mem_cons.mpr ⟨le_rfl, fun z hz => ?_⟩⟩
        exact (hle z hz).trans (not_lt.mp hge)

theorem argmin_eq_some (h : argmin xs = some (i, v)) : xs[i]? = some v ∧ ∀ x ∈ xs, v ≤ x := by
  obtain ⟨⟨j, u⟩, hmax, heq⟩ := map_eq_some_iff.mp h
  cases heq
  obtain ⟨hget, hle⟩ := argmax_eq_some hmax
  rw [getElem?_map] at hget
  obtain ⟨w, hw, rfl⟩ := map_eq_some_iff.mp hget
  refine ⟨by rw [hw, neg_neg], fun x hx => ?_⟩
  have hx := hle (-x) (List.mem_map_of_mem hx)
  omega

end

section

variable {lo hi : Int} {padded : Bool} {w : List Int}

theorem greatest_of_attained (hle : lo ≤ hi) (h : (boundWithPadding w lo hi padded).2.2.2 = true) :
    (w.map fun v => greatest lo hi padded v).sum = (w.map fun v => vertexAt lo hi true v * v).sum := by
  congr 1
  apply map_congr_left
  intro v hv
  rw [vertex_max hle, greatest]
  cases padded with
  | false => rfl
  | true =>
    have hall : (w.map fun v => max (v * lo) (v * hi)).all (fun c => 0 ≤ c) = true := h
    have hnonneg := List.all_eq_true.mp hall _ (List.mem_map_of_mem hv)
    rw [if_pos rfl, max_eq_left (of_decide_eq_true hnonneg)]

theorem least_of_attained (hle : lo ≤ hi) (h : (boundWithPadding w lo hi padded).2.2.1 = true) :
    (w.map fun v => least lo hi padded v).sum = (w.map fun v => vertexAt lo hi false v * v).sum := by
  congr 1
  apply map_congr_left
  intro v hv
  rw [vertex_min hle, least]
  cases padded with
  | false => rfl
  | true =>
    have hall : (w.map fun v => min (v * lo) (v * hi)).all (fun c => c ≤ 0) = true := h
    have hnonpos := List.all_eq_true.mp hall _ (List.mem_map_of_mem hv)
    rw [if_pos rfl, min_eq_left (of_decide_eq_true hnonpos)]

variable {op : Operation} {xShape : Option (List Nat)} {actRange : Option (Int × Int)} {layer : Layer} {c : Nat}

theorem max_of_attained (hex : Extracts op xShape actRange layer) (hle : layer.dLo ≤ layer.dHi)
    (h : (channelRange layer c w).maxAttained = true) : (channelRange layer c w).max =
      biasAt layer.bias c + (w.map fun v => vertexAt layer.dLo layer.dHi true v * v).sum := by
  cases hconv : op.isConv with
  | false => rw [channelRange_matmul (hex.isConv.trans hconv)]
  | true =>
    obtain ⟨_, _, _, _, -, hg, -⟩ := hex.conv hconv
    rw [channelRange_conv (hex.isConv.trans hconv) hg] at h ⊢
    dsimp only at h ⊢
    rw [greatest_of_attained hle (Bool.and_eq_true _ _ ▸ h).1, add_comm]

theorem min_of_attained (hex : Extracts op xShape actRange layer) (hle : layer.dLo ≤ layer.dHi)
    (h : (channelRange layer c w).minAttained = true) : (channelRange layer c w).min =
      biasAt layer.bias c + (w.map fun v => vertexAt layer.dLo layer.dHi false v * v).sum := by
  cases hconv : op.isConv with
  | false => rw [channelRange_matmul (hex.isConv.trans hconv)]
  | true =>
    obtain ⟨_, _, _, _, -, hg, -⟩ := hex.conv hconv
    rw [channelRange_conv (hex.isConv.trans hconv) hg] at h ⊢
    rw [least_of_attained hle (Bool.and_eq_true _ _ ▸ h).1, add_comm]

theorem vertex_reached (hex : Extracts op xShape actRange layer) (hwf : op.WellFormed) (hle : layer.dLo ≤ layer.dHi)
    (maximise : Bool) (hw : layer.wq[c]? = some w) : ∃ x out,
      (if layer.isConv = true then convCounterexample layer (vertexInput w layer.dLo layer.dHi maximise) c
        else matmulCounterexample layer (vertexInput w layer.dLo layer.dHi maximise)) = x ∧ op.Valid x out ∧
      (op.terms x out).sum = biasAt layer.bias c + (w.map fun v => vertexAt layer.dLo layer.dHi maximise v * v).sum := by
  cases hconv : op.isConv with
  | false =>
    rw [hex.isConv, hconv, if_neg Bool.false_ne_true]
    obtain ⟨hvalid, hsum⟩ := matmul_vertex hex hle hconv maximise hw
    exact ⟨_, _, rfl, hvalid, hsum⟩
  | true =>
    rw [hex.isConv, hconv, if_pos rfl]
    obtain ⟨oy, ox, hvalid, hsum⟩ := conv_vertex hex hwf hle hconv maximise hw
    exact ⟨_, _, rfl, hvalid, hsum⟩

end

variable {maximise attained : Bool} {val : Int}

section

variable {solve : Solver} {z3MaxK : Nat} {layer : Layer} {expectWrap : Bool} {f : Finding}

theorem kind_of_mem_check {cs : List Nat} (h : f ∈ z3CrossCheck.check solve layer z3MaxK expectWrap cs) :
    f.kind ≠ "no-wrap" := by
  induction cs with
  | nil =>
    cases mem_singleton.mp h
    decide
  | cons c cs ih =>
    rw [z3CrossCheck.check] at h
    split at h
    · cases h
    · split at h
      · cases h
      · cases mem_singleton.mp h
        change "no-wrap-z3" ≠ "no-wrap"
        decide
      · split at h
        · cases mem_singleton.mp h
          change "internal-inconsistency" ≠ "no-wrap"
          decide
        · exact ih h

theorem kind_of_mem_z3CrossCheck {cHi cLo : Nat} (h : f ∈ z3CrossCheck solve layer cHi cLo z3MaxK expectWrap) :
    f.kind ≠ "no-wrap" := by
  rw [z3CrossCheck] at h
  split at h
  · cases h
  · exact kind_of_mem_check h

theorem of_mem_exceeded {c : Nat} (h : f ∈ exceeded solve z3MaxK layer maximise c val attained)
    (hkind : f.kind = "no-wrap") :
    f.verdict ≠ .proved ∧ (f.verdict = .refuted → attained = true ∧ f.counterexample =
      some (if layer.isConv = true then
          convCounterexample layer (vertexInput (layer.wq.getD c []) layer.dLo layer.dHi maximise) c
        else matmulCounterexample layer (vertexInput (layer.wq.getD c []) layer.dLo layer.dHi maximise))) := by
  rw [exceeded] at h
  split at h
  · cases mem_singleton.mp h
    exact ⟨Verdict.noConfusion, Verdict.noConfusion⟩
  · next hatt =>
    rcases mem_cons.mp h with rfl | h
    · exact ⟨Verdict.noConfusion, fun _ => ⟨by simpa using hatt, rfl⟩⟩
    · exact absurd hkind (kind_of_mem_z3CrossCheck h)

end

/-- In every order of additions, on all activations in range, the register holds the exact sum. -/
def NeverWraps (op : Operation) (dtype : Nat) (actRange : Option (Int × Int)) : Prop :=
  ∀ x out, op.Valid x out → (∀ v ∈ x.data, InRange dtype actRange v) →
    ∀ t : AddTree Int, t.terms.Perm (op.terms x out) → (t.wrapped 32).toInt = (op.terms x out).sum

def Overflows (op : Operation) (x : NDArray Int) : Prop :=
  ∃ out, op.Valid x out ∧ ¬FitsInt32 (op.terms x out).sum

variable {op : Operation} {xShape : Option (List Nat)} {actRange : Option (Int × Int)} {layer : Layer}
  {solve : Solver} {z3MaxK : Nat} {findings : List Finding} {f : Finding}

theorem neverWraps_of_bounds (hex : Extracts op xShape actRange layer) (hwf : op.WellFormed)
    (hmax : ∀ r ∈ channelRanges layer, r.max ≤ INT32_MAX) (hmin : ∀ r ∈ channelRanges layer, INT32_MIN ≤ r.min) :
    NeverWraps op layer.aDtype actRange := by
  intro x out hvalid hcodes t ht
  obtain ⟨r, hr, hlo, hhi⟩ := sum_mem hex hwf hcodes hvalid
  have hlower : INT32_MIN ≤ (op.terms x out).sum := (hmin r hr).trans hlo
  have hupper : (op.terms x out).sum ≤ INT32_MAX := hhi.trans (hmax r hr)
  rw [INT32_MIN] at hlower
  rw [INT32_MAX] at hupper
  apply AddTree.wrapped_exact (by decide) t ht
  · exact hlower
  · omega

theorem range_of_code (hex : Extracts op xShape actRange layer) (h : ∃ v, InRange layer.aDtype actRange v) :
    layer.dLo ≤ layer.dHi := by
  obtain ⟨v, hv⟩ := h
  obtain ⟨hlo, hhi⟩ := (hex.codes v).mp hv
  exact hlo.trans hhi

theorem exists_channel {c : Nat} {r : ChannelRange} (h : (channelRanges layer)[c]? = some r) :
    ∃ w, layer.wq[c]? = some w ∧ channelRange layer c w = r := by
  rw [getElem?_channelRanges] at h
  exact map_eq_some_iff.mp h

theorem overflows_of_attained (hex : Extracts op xShape actRange layer) (hwf : op.WellFormed)
    (hle : layer.dLo ≤ layer.dHi) {c : Nat} (hval : ∀ w, layer.wq[c]? = some w → attained = true →
      val = biasAt layer.bias c + (w.map fun v => vertexAt layer.dLo layer.dHi maximise v * v).sum)
    (hc : ∃ w, layer.wq[c]? = some w) (hbad : ¬FitsInt32 val)
    (hf : f ∈ exceeded solve z3MaxK layer maximise c val attained) (hkind : f.kind = "no-wrap")
    (hv : f.verdict = .refuted) : ∃ x, f.counterexample = some x ∧ Overflows op x := by
  obtain ⟨hatt, hcex⟩ := (of_mem_exceeded hf hkind).2 hv
  obtain ⟨w, hw⟩ := hc
  obtain ⟨x, out, hx, hvalid, hsum⟩ := vertex_reached hex hwf hle maximise hw
  have hget : layer.wq.getD c [] = w := by rw [getD_eq_getElem?_getD, hw, getD_some]
  refine ⟨x, ?_, out, hvalid, ?_⟩
  · rw [hcex, hget, hx]
  · rw [hsum, ← hval w hw hatt]
    exact hbad

theorem verdict_exact (hex : Extracts op xShape actRange layer) (hwf : op.WellFormed)
    (hfindings : noWrapFindings solve z3MaxK layer = some findings) (hf : f ∈ findings) (hkind : f.kind = "no-wrap") :
    (f.verdict = .proved → NeverWraps op layer.aDtype actRange) ∧
      (f.verdict = .refuted → (∃ v, InRange layer.aDtype actRange v) →
        ∃ x, f.counterexample = some x ∧ Overflows op x) := by
  obtain ⟨⟨cHi, worstHi⟩, hmax, h⟩ := bind_eq_some_iff.mp hfindings
  obtain ⟨⟨cLo, worstLo⟩, hmin, h⟩ := bind_eq_some_iff.mp h
  obtain ⟨hgetHi, hallHi⟩ := argmax_eq_some hmax
  obtain ⟨hgetLo, hallLo⟩ := argmin_eq_some hmin
  rw [getElem?_map] at hgetHi hgetLo
  obtain ⟨rHi, hrHi, rfl⟩ := map_eq_some_iff.mp hgetHi
  obtain ⟨rLo, hrLo, rfl⟩ := map_eq_some_iff.mp hgetLo
  obtain ⟨wHi, hwHi, rfl⟩ := exists_channel hrHi
  obtain ⟨wLo, hwLo, rfl⟩ := exists_channel hrLo
  dsimp only at h
  by_cases hover : INT32_MAX < (channelRange layer cHi wHi).max
  · rw [decide_eq_true hover, if_neg (by simp), if_pos rfl] at h
    cases h
    refine ⟨fun hv => absurd hv (of_mem_exceeded hf hkind).1, fun hv hcode => ?_⟩
    have hle := range_of_code hex hcode
    apply overflows_of_attained hex hwf hle ?_ ⟨wHi, hwHi⟩ ?_ hf hkind hv
    · intro w hw hatt
      cases hwHi.symm.trans hw
      rw [hrHi] at hatt
      exact max_of_attained hex hle hatt
    · rw [FitsInt32]
      omega
  · by_cases hunder : (channelRange layer cLo wLo).min < INT32_MIN
    · rw [decide_eq_false hover, decide_eq_true hunder, if_neg (by simp), if_neg Bool.false_ne_true] at h
      cases h
      refine ⟨fun hv => absurd hv (of_mem_exceeded hf hkind).1, fun hv hcode => ?_⟩
      have hle := range_of_code hex hcode
      apply overflows_of_attained hex hwf hle ?_ ⟨wLo, hwLo⟩ ?_ hf hkind hv
      · intro w hw hatt
        cases hwLo.symm.trans hw
        rw [hrLo] at hatt
        exact min_of_attained hex hle hatt
      · rw [FitsInt32]
        omega
    · rw [decide_eq_false hover, decide_eq_false hunder, if_pos (by simp)] at h
      cases h
      rcases mem_cons.mp hf with rfl | hf
      · refine ⟨fun _ => ?_, Verdict.noConfusion⟩
        apply neverWraps_of_bounds hex hwf
        · intro r hr
          exact (hallHi _ (List.mem_map_of_mem hr)).trans (not_lt.mp hover)
        · intro r hr
          exact (not_lt.mp hunder).trans (hallLo _ (List.mem_map_of_mem hr))
      · exact absurd hkind (kind_of_mem_z3CrossCheck hf)

variable {consts : String → Option Const} {node : Node} {elemTypes : String → Option Nat}
  {shapes : String → Option (List Nat)}

theorem no_wrap_exact (hlayer : extractLayer consts node elemTypes shapes actRange = .ok layer)
    (hfindings : noWrapFindings solve z3MaxK layer = some findings) (hf : f ∈ findings) (hkind : f.kind = "no-wrap") :
    ∃ op, operationOf consts node = some op ∧ (op.WellFormed →
      (f.verdict = .proved → NeverWraps op layer.aDtype actRange) ∧
      (f.verdict = .refuted → (∃ v, InRange layer.aDtype actRange v) →
        ∃ x, f.counterexample = some x ∧ Overflows op x)) := by
  obtain ⟨op, hop, hex⟩ := extracts hlayer
  refine ⟨op, hop, fun hwf => ?_⟩
  obtain ⟨xShape, hex⟩ := hex hwf
  exact verdict_exact hex hwf hfindings hf hkind

/-- A convolution with one tap and a bias close to the end of the register. -/
def smallConsts (name : String) : Option Const :=
  if name = "w" then some ⟨3, ⟨[1, 1, 1, 1], [127], rfl⟩⟩
  else if name = "x_zp" then some ⟨2, ⟨[], [3], rfl⟩⟩
  else if name = "w_zp" then some ⟨3, ⟨[], [0], rfl⟩⟩
  else if name = "y_zp" then some ⟨2, ⟨[], [0], rfl⟩⟩
  else if name = "bias" then some ⟨6, ⟨[1], [2147483000], rfl⟩⟩
  else if name = "x_scale" ∨ name = "w_scale" ∨ name = "y_scale" then some ⟨1, ⟨[], [1], rfl⟩⟩
  else none

def smallNode : Node :=
  ⟨"QLinearConv", "conv", ["x", "x_scale", "x_zp", "w", "w_scale", "w_zp", "y_scale", "y_zp", "bias"], ["y"],
    ⟨(1, 1), (1, 1), (1, 1, 1, 1), 1, "NOTSET", by decide, by decide, by decide⟩⟩

theorem no_wrap_exact_small : ∃ op, operationOf smallConsts smallNode = some op ∧ ∃ x, Overflows op x := by
  have hlayer : extractLayer smallConsts smallNode (fun _ => none) (fun _ => some [1, 1, 3, 3]) none = .ok _ := rfl
  obtain ⟨op, hop, h⟩ := no_wrap_exact hlayer
    (show noWrapFindings (fun _ _ _ _ => none) 0 _ = some _ from rfl) mem_cons_self rfl
  cases hop
  refine ⟨_, rfl, ?_⟩
  have hwf : Operation.WellFormed ⟨true, ⟨3, ⟨[1, 1, 1, 1], [127], rfl⟩⟩, some ⟨3, ⟨[], [0], rfl⟩⟩, 3,
      some ⟨6, ⟨[1], [2147483000], rfl⟩⟩, smallNode.attrs⟩ := by
    constructor
    · intro cout cg kh kw _ hshape z hz
      cases hz
      exact .inl rfl
    · intro cout cg kh kw _ hshape b hb
      cases hb
      cases hshape
      rfl
    · intro cout cg kh kw _ hshape
      cases hshape
      exact one_dvd 1
    · intro cout cg kh kw _ hshape
      cases hshape
      decide
  obtain ⟨x, -, hx⟩ := (h hwf).2 rfl ⟨0, ⟨0, 255, rfl, by decide, by decide⟩, by simp⟩
  exact ⟨x, hx⟩

end Onnxsim.QuantInt.Verdicts
