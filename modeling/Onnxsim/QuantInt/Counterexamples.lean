import Onnxsim.QuantInt.Extraction

namespace Onnxsim.QuantInt.Bounds

open List Option Overflow.Arrays Layers NoWrap Accumulators
open Extraction

variable {lo hi : Int} {padded : Bool}

/-- The most that a weight can add, where its tap may lie in the padding. -/
def greatest (lo hi : Int) (padded : Bool) (v : Int) : Int :=
  if padded then max (max (v * lo) (v * hi)) 0 else max (v * lo) (v * hi)

def least (lo hi : Int) (padded : Bool) (v : Int) : Int :=
  if padded then min (min (v * lo) (v * hi)) 0 else min (v * lo) (v * hi)

theorem boundWithPadding_max (w : List Int) :
    (boundWithPadding w lo hi padded).2.1 = (w.map (greatest lo hi padded)).sum := by
  cases padded with
  | false => rfl
  | true =>
    change ((w.map fun v => max (v * lo) (v * hi)).map fun c => max c 0).sum = _
    rw [List.map_map]
    rfl

theorem boundWithPadding_min (w : List Int) :
    (boundWithPadding w lo hi padded).1 = (w.map (least lo hi padded)).sum := by
  cases padded with
  | false => rfl
  | true =>
    change ((w.map fun v => min (v * lo) (v * hi)).map fun c => min c 0).sum = _
    rw [List.map_map]
    rfl

def Read (lo hi : Int) (padded : Bool) (d : Int) : Prop := (lo ≤ d ∧ d ≤ hi) ∨ (d = 0 ∧ padded = true)

theorem mul_le_greatest {d : Int} (h : Read lo hi padded d) (v : Int) : d * v ≤ greatest lo hi padded v := by
  rw [greatest]
  rcases h with ⟨hlo, hhi⟩ | ⟨rfl, rfl⟩
  · have hmul : d * v ≤ max (v * lo) (v * hi) := by
      rw [← vertex_max (hlo.trans hhi)]
      exact mul_le_vertex hlo hhi v
    split
    · exact le_max_of_le_left hmul
    · exact hmul
  · rw [if_pos rfl, zero_mul]
    exact le_max_right _ _

theorem least_le_mul {d : Int} (h : Read lo hi padded d) (v : Int) : least lo hi padded v ≤ d * v := by
  rw [least]
  rcases h with ⟨hlo, hhi⟩ | ⟨rfl, rfl⟩
  · have hmul : min (v * lo) (v * hi) ≤ d * v := by
      rw [← vertex_min (hlo.trans hhi)]
      exact vertex_le_mul hlo hhi v
    split
    · exact min_le_of_left_le hmul
    · exact hmul
  · rw [if_pos rfl, zero_mul]
    exact min_le_right _ _

variable {cout co oy ox b n : Nat} {op : Operation} {x : NDArray Int}

theorem convGeometry_padded (attrs : ConvAttrs) (kh kw : Nat) (xShape : Option (List Nat)) :
    (convGeometry attrs kh kw xShape).padded =
      decide ¬(attrs.pads.1 = 0 ∧ attrs.pads.2.1 = 0 ∧ attrs.pads.2.2.1 = 0 ∧ attrs.pads.2.2.2 = 0) := by
  cases xShape with
  | none => rfl
  | some shape => rcases shape with _ | ⟨_, _ | ⟨_, _ | ⟨_, _ | ⟨_, _ | _⟩⟩⟩⟩ <;> rfl

theorem window_inside {o stride dilation kernel size t : Nat} (h : Window o stride 0 0 dilation kernel size)
    (ht : t < kernel) : o * stride + t * dilation < size := by
  rw [Window] at h
  have hle : t * dilation ≤ dilation * (kernel - 1) := by
    rw [mul_comm]
    exact Nat.mul_le_mul_left _ (by omega)
  omega

variable {n₀ n₁ n₂ cg : Nat} {t : List Nat}

theorem mem_indices_four {n₃ i₀ i₁ i₂ i₃ : Nat} :
    [i₀, i₁, i₂, i₃] ∈ indices [n₀, n₁, n₂, n₃] ↔ i₀ < n₀ ∧ i₁ < n₁ ∧ i₂ < n₂ ∧ i₃ < n₃ := by
  simp [indices]

theorem exists_of_mem_indices_three (h : t ∈ indices [n₀, n₁, n₂]) :
    ∃ i j k, t = [i, j, k] ∧ i < n₀ ∧ j < n₁ ∧ k < n₂ := by
  obtain ⟨i, t₁, rfl, hi, h⟩ := exists_of_mem_indices_cons h
  obtain ⟨j, t₂, rfl, hj, h⟩ := exists_of_mem_indices_cons h
  obtain ⟨k, t₃, rfl, hk, h⟩ := exists_of_mem_indices_cons h
  cases mem_singleton.mp h
  exact ⟨i, j, k, rfl, hi, hj, hk⟩

theorem group_channel {group i : Nat} (hco : co < cout) (hgroup : group ∣ cout) (hi : i < cg) :
    co / (cout / group) * cg + i < cg * group := by
  have hlt : co / (cout / group) < group := by
    apply Nat.div_lt_of_lt_mul
    rwa [Nat.div_mul_cancel hgroup]
  calc co / (cout / group) * cg + i < (co / (cout / group) + 1) * cg := by
        rw [Nat.succ_mul]
        exact Nat.add_lt_add_left hi _
    _ ≤ group * cg := Nat.mul_le_mul_right _ hlt
    _ = cg * group := mul_comm _ _

theorem entry_mem {idx : List Nat} (h : idx ∈ indices x.shape) : entry x idx ∈ x.data := by
  obtain ⟨v, hv, hget⟩ := NDArray.get?_of_mem_indices h
  rw [entry, hget]
  exact hv

theorem tap_cases (hwf : op.WellFormed) {kh kw : Nat} (hvalid : op.Valid x (.conv b co oy ox))
    (hshape : op.w.array.shape = [cout, cg, kh, kw]) (ht : t ∈ indices [cg, kh, kw]) (xShape : Option (List Nat)) :
    (∃ v ∈ x.data, op.tap x b co oy ox t = v - op.za) ∨
      (op.tap x b co oy ox t = 0 ∧ (convGeometry op.attrs kh kw xShape).padded = true) := by
  obtain ⟨hconv, batch, h, w, cout', cg', kh', kw', hshape', hx, hb, hco, hwy, hwx⟩ := hvalid
  cases hshape.symm.trans hshape'
  obtain ⟨i, j, k, rfl, hi, hj, hk⟩ := exists_of_mem_indices_three ht
  rw [Operation.tap]
  split
  · next hin =>
    left
    refine ⟨_, entry_mem ?_, rfl⟩
    rw [hx] at hin ⊢
    rw [hshape]
    simp only [getD_cons_succ, getD_cons_zero] at hin ⊢
    rw [mem_indices_four]
    refine ⟨hb, group_channel hco (hwf.groups _ _ _ _ hconv hshape) hi, ?_, ?_⟩
    · omega
    · omega
  · next hout =>
    right
    refine ⟨rfl, ?_⟩
    rw [convGeometry_padded, decide_eq_true_eq]
    rintro ⟨h₀, h₁, h₂, h₃⟩
    apply hout
    rw [h₀, h₂] at hwy
    rw [h₁, h₃] at hwx
    have hy := window_inside hwy hj
    have hz := window_inside hwx hk
    rw [h₀, h₁, hx]
    simp only [getD_cons_succ, getD_cons_zero, Nat.cast_zero, sub_zero]
    exact ⟨by positivity, by exact_mod_cast hy, by positivity, by exact_mod_cast hz⟩

variable {layer : Layer} {c : Nat} {w : List Int}

theorem channelRange_conv {g : Geometry} (hconv : layer.isConv = true) (hg : layer.geometry = some g) :
    channelRange layer c w =
      ⟨(w.map fun v => least layer.dLo layer.dHi g.padded v).sum + biasAt layer.bias c,
        (w.map fun v => greatest layer.dLo layer.dHi g.padded v).sum + biasAt layer.bias c,
        (boundWithPadding w layer.dLo layer.dHi g.padded).2.2.1 && (g.interior.isSome || !g.padded),
        (boundWithPadding w layer.dLo layer.dHi g.padded).2.2.2 && (g.interior.isSome || !g.padded)⟩ := by
  rw [channelRange, hconv, hg, ← boundWithPadding_max, ← boundWithPadding_min]

theorem channelRange_matmul (hconv : layer.isConv = false) :
    channelRange layer c w =
      ⟨biasAt layer.bias c + (w.map fun v => vertexAt layer.dLo layer.dHi false v * v).sum,
        biasAt layer.bias c + (w.map fun v => vertexAt layer.dLo layer.dHi true v * v).sum, true, true⟩ := by
  rw [channelRange, hconv, accumulatorRange_eq]

theorem getElem?_channelRanges :
    (channelRanges layer)[c]? = (layer.wq[c]?).map fun w => channelRange layer c w := getElem?_mapIdx ..

theorem getElem?_map_range {α : Type} (f : Nat → α) (h : c < n) : ((List.range n).map f)[c]? = some (f c) := by
  simp [h]

theorem biasAt_replicate (n : Nat) : biasAt (List.replicate n 0) c = 0 := by
  rw [biasAt]
  split
  · by_cases hc : c < n
    · simp [hc]
    · simp [hc]
  · cases n with
    | zero => rfl
    | succ n => rfl

theorem biasAt_eq (hc : c < cout) (hlen : ∀ b ∈ op.bias, b.array.data.length = cout) :
    biasAt (op.bias.elim (List.replicate cout 0) fun b => b.array.data) c =
      op.bias.elim 0 fun b => b.array.data.getD c 0 := by
  cases hb : op.bias with
  | none => exact biasAt_replicate cout
  | some b =>
    have hlen := hlen b hb
    rw [elim_some, elim_some, biasAt]
    split
    · rfl
    · rw [show c = 0 by omega]

variable {xShape : Option (List Nat)} {actRange : Option (Int × Int)}

theorem matmul_sum_mem (hex : Extracts op xShape actRange layer)
    (hcodes : ∀ v ∈ x.data, InRange layer.aDtype actRange v) {row : List Nat} (hvalid : op.Valid x (.matmul row n)) :
    ∃ r, (channelRanges layer)[n]? = some r ∧
      r.min ≤ (op.terms x (.matmul row n)).sum ∧ (op.terms x (.matmul row n)).sum ≤ r.max := by
  obtain ⟨hconv, pre, k, cols, hshape, hx, hrow, hn⟩ := hvalid
  obtain ⟨k', cols', hshape', hbias, hwq⟩ := hex.matmul hconv
  cases hshape.symm.trans hshape'
  have hread : ∀ r < k, layer.dLo ≤ entry x (row ++ [r]) - op.za ∧ entry x (row ++ [r]) - op.za ≤ layer.dHi := by
    intro r hr
    apply (hex.codes _).mp
    apply hcodes
    apply entry_mem
    rw [hx]
    exact append_mem_indices hrow (mem_indices_cons.mpr ⟨hr, mem_singleton_self _⟩)
  refine ⟨_, by rw [getElem?_channelRanges, hwq, getElem?_map_range _ hn, map_some], ?_⟩
  rw [channelRange_matmul (hex.isConv.trans hconv), hbias, biasAt_replicate]
  simp only [zero_add, List.map_map, Operation.terms, hshape, getD_cons_zero]
  constructor
  · apply sum_le_sum
    intro r hr
    obtain ⟨hlo, hhi⟩ := hread r (mem_range.mp hr)
    exact vertex_le_mul hlo hhi _
  · apply sum_le_sum
    intro r hr
    obtain ⟨hlo, hhi⟩ := hread r (mem_range.mp hr)
    exact mul_le_vertex hlo hhi _

theorem conv_sum_mem (hex : Extracts op xShape actRange layer) (hwf : op.WellFormed)
    (hcodes : ∀ v ∈ x.data, InRange layer.aDtype actRange v) (hvalid : op.Valid x (.conv b co oy ox)) :
    ∃ r, (channelRanges layer)[co]? = some r ∧
      r.min ≤ (op.terms x (.conv b co oy ox)).sum ∧ (op.terms x (.conv b co oy ox)).sum ≤ r.max := by
  have hconv : op.isConv = true := hvalid.1
  obtain ⟨cout, cg, kh, kw, hshape, hgeometry, hbias, hwq⟩ := hex.conv hconv
  have hco : co < cout := by
    obtain ⟨-, _, _, _, _, _, _, _, hshape', -, -, hco, -⟩ := hvalid
    cases hshape.symm.trans hshape'
    exact hco
  have hread : ∀ t ∈ indices [cg, kh, kw], Read layer.dLo layer.dHi (convGeometry op.attrs kh kw xShape).padded
      (op.tap x b co oy ox t) := by
    intro t ht
    rcases tap_cases hwf hvalid hshape ht xShape with ⟨v, hv, htap⟩ | htap
    · rw [htap]
      exact .inl ((hex.codes v).mp (hcodes v hv))
    · exact .inr htap
  refine ⟨_, by rw [getElem?_channelRanges, hwq, getElem?_map_range _ hco, map_some], ?_⟩
  rw [channelRange_conv (hex.isConv.trans hconv) hgeometry, hbias, biasAt_eq hco (hwf.bias _ _ _ _ hconv hshape)]
  simp only [List.map_map, Operation.terms, sum_cons, hshape]
  rw [add_comm, add_comm _ (op.bias.elim _ _)]
  constructor
  · apply Int.add_le_add_left
    apply sum_le_sum
    intro t ht
    exact least_le_mul (hread t ht) _
  · apply Int.add_le_add_left
    apply sum_le_sum
    intro t ht
    exact mul_le_greatest (hread t ht) _

theorem sum_mem (hex : Extracts op xShape actRange layer) (hwf : op.WellFormed)
    (hcodes : ∀ v ∈ x.data, InRange layer.aDtype actRange v) {out : Output} (hvalid : op.Valid x out) :
    ∃ r ∈ channelRanges layer, r.min ≤ (op.terms x out).sum ∧ (op.terms x out).sum ≤ r.max := by
  cases out with
  | matmul row n =>
    obtain ⟨r, hr, hsum⟩ := matmul_sum_mem hex hcodes hvalid
    exact ⟨r, mem_of_getElem? hr, hsum⟩
  | conv b co oy ox =>
    obtain ⟨r, hr, hsum⟩ := conv_sum_mem hex hwf hcodes hvalid
    exact ⟨r, mem_of_getElem? hr, hsum⟩

end Onnxsim.QuantInt.Bounds

namespace Onnxsim.QuantInt.Counterexamples

open List Option Overflow.Arrays Layers NoWrap Accumulators
open Extraction Bounds

section

variable {x : NDArray Int} {idx idx' : List Nat} {v : Int}

theorem assign_shape (x : NDArray Int) (idx : List Nat) (v : Int) : (assign x idx v).shape = x.shape := by
  rw [assign]
  split <;> rfl

theorem get?_assign_self (h : idx ∈ indices x.shape) : (assign x idx v).get? idx = some v := by
  obtain ⟨k, hk, hoff⟩ := offset_of_mem_indices h
  rw [← x.length_data] at hk
  rw [assign, hoff]
  dsimp only [NDArray.get?]
  rw [hoff, bind_some, getElem?_set_self hk]

theorem get?_assign_of_ne (h : idx ∈ indices x.shape) (h' : idx' ∈ indices x.shape) (hne : idx ≠ idx') :
    (assign x idx v).get? idx' = x.get? idx' := by
  obtain ⟨k, -, hoff⟩ := offset_of_mem_indices h
  obtain ⟨k', -, hoff'⟩ := offset_of_mem_indices h'
  have hk : k ≠ k' := by
    rintro rfl
    exact hne (offset_inj h h' (hoff.trans hoff'.symm))
  rw [assign, hoff]
  dsimp only [NDArray.get?]
  rw [hoff', bind_some, bind_some, getElem?_set_ne hk]

variable {α : Type} {key : α → List Nat} {value : α → Int}

theorem foldl_assign_shape (l : List α) (x : NDArray Int) :
    (l.foldl (fun x a => assign x (key a) (value a)) x).shape = x.shape := by
  induction l generalizing x with
  | nil => rfl
  | cons a l ih => rw [foldl_cons, ih, assign_shape]

theorem get?_foldl_assign_of_ne {l : List α} (hl : ∀ a ∈ l, key a ∈ indices x.shape) (hidx : idx ∈ indices x.shape)
    (hne : ∀ a ∈ l, key a ≠ idx) :
    (l.foldl (fun x a => assign x (key a) (value a)) x).get? idx = x.get? idx := by
  induction l generalizing x with
  | nil => rfl
  | cons a l ih =>
    rw [forall_mem_cons] at hl hne
    rw [foldl_cons, ih, get?_assign_of_ne hl.1 hidx hne.1]
    · rw [assign_shape]
      exact hl.2
    · rw [assign_shape]
      exact hidx
    · exact hne.2

theorem get?_foldl_assign {l : List α} (hl : ∀ a ∈ l, key a ∈ indices x.shape) (hnodup : (l.map key).Nodup) {a : α}
    (ha : a ∈ l) : (l.foldl (fun x a => assign x (key a) (value a)) x).get? (key a) = some (value a) := by
  induction l generalizing x with
  | nil => cases ha
  | cons b l ih =>
    rw [forall_mem_cons] at hl
    rw [map_cons, nodup_cons] at hnodup
    have hl' : ∀ a ∈ l, key a ∈ indices (assign x (key b) (value b)).shape := by
      rw [assign_shape]
      exact hl.2
    rw [foldl_cons]
    rcases mem_cons.mp ha with rfl | ha
    · have hidx : key a ∈ indices (assign x (key a) (value a)).shape := by
        rw [assign_shape]
        exact hl.1
      rw [get?_foldl_assign_of_ne hl' hidx, get?_assign_self hl.1]
      intro c hc heq
      exact hnodup.1 (heq ▸ List.mem_map_of_mem hc)
    · exact ih hl' hnodup.2 ha

variable {op : Operation} {xShape : Option (List Nat)} {actRange : Option (Int × Int)} {layer : Layer}

theorem castTo_of_inRange {dtype : Nat} {v : Int} (h : InRange dtype actRange v) : castTo dtype v = v := by
  obtain ⟨⟨lo, hi, hr, hlo, hhi⟩, -⟩ := h
  rw [castTo, hr]
  dsimp only [getD_some]
  rw [Int.emod_eq_of_lt (by omega) (by omega)]
  omega

theorem vertexAt_mem {lo hi : Int} (hle : lo ≤ hi) (maximise : Bool) (w : Int) :
    lo ≤ vertexAt lo hi maximise w ∧ vertexAt lo hi maximise w ≤ hi := by
  rw [vertexAt]
  cases maximise with
  | false => split <;> simp [hle]
  | true => split <;> simp [hle]

theorem castTo_vertex (hex : Extracts op xShape actRange layer) (hle : layer.dLo ≤ layer.dHi) (maximise : Bool)
    (w : Int) : castTo layer.aDtype (vertexAt layer.dLo layer.dHi maximise w + op.za) =
      vertexAt layer.dLo layer.dHi maximise w + op.za := by
  apply castTo_of_inRange ((hex.codes _).mpr ?_)
  rw [add_sub_cancel_right]
  exact vertexAt_mem hle maximise w

theorem matmul_vertex (hex : Extracts op xShape actRange layer) (hle : layer.dLo ≤ layer.dHi)
    (hconv : op.isConv = false) (maximise : Bool) {c : Nat} {w : List Int} (hw : layer.wq[c]? = some w) :
    op.Valid (matmulCounterexample layer (vertexInput w layer.dLo layer.dHi maximise)) (.matmul [0] c) ∧
      (op.terms (matmulCounterexample layer (vertexInput w layer.dLo layer.dHi maximise)) (.matmul [0] c)).sum =
        biasAt layer.bias c + (w.map fun v => vertexAt layer.dLo layer.dHi maximise v * v).sum := by
  obtain ⟨k, n, hshape, hbias, hwq⟩ := hex.matmul hconv
  have hc : c < n := by
    have hlt := (List.getElem?_eq_some_iff.mp hw).1
    rw [hwq] at hlt
    simpa using hlt
  rw [hwq, getElem?_map_range _ hc] at hw
  cases hw
  rw [vertexInput_eq, List.map_map]
  refine ⟨⟨hconv, [1], k, n, hshape, by simp [matmulCounterexample, NDArray.ofFn], by decide, hc⟩, ?_⟩
  rw [hbias, biasAt_replicate, zero_add, List.map_map, Operation.terms, hshape, getD_cons_zero]
  congr 1
  apply map_congr_left
  intro r hr
  have hidx : [0, r] ∈ indices [1, ((List.range k).map
      (vertexAt layer.dLo layer.dHi maximise ∘ fun r => op.weight c [r, c])).length] := by
    rw [length_map, length_range]
    exact mem_indices_cons.mpr ⟨Nat.one_pos, mem_indices_cons.mpr ⟨mem_range.mp hr, mem_singleton_self _⟩⟩
  have hd : ((List.range k).map (vertexAt layer.dLo layer.dHi maximise ∘ fun r => op.weight c [r, c])).getD r 0 =
      vertexAt layer.dLo layer.dHi maximise (op.weight c [r, c]) := by
    rw [getD_eq_getElem?_getD, getElem?_map_range _ (mem_range.mp hr)]
    rfl
  have hentry : entry (matmulCounterexample layer ((List.range k).map
      (vertexAt layer.dLo layer.dHi maximise ∘ fun r => op.weight c [r, c]))) ([0] ++ [r]) =
        vertexAt layer.dLo layer.dHi maximise (op.weight c [r, c]) + op.za := by
    rw [entry, matmulCounterexample, singleton_append, NDArray.get?_ofFn _ hidx, getD_some,
      getD_cons_succ, getD_cons_zero, hd, hex.za, castTo_vertex hex hle]
  rw [hentry, add_sub_cancel_right]
  rfl

def inner (pad stride : Nat) : Int := -(-(pad : Int) / stride)

variable {stride dilation pad kernel size t : Nat}

theorem pad_le_inner (hs : 0 < stride) (pad : Nat) : (pad : Int) ≤ inner pad stride * stride := by
  have h := Int.ediv_mul_le (-(pad : Int)) (show (stride : Int) ≠ 0 by omega)
  rw [inner, Int.neg_mul]
  omega

theorem inner_nonneg (hs : 0 < stride) (pad : Nat) : 0 ≤ inner pad stride := by
  by_contra hneg
  have hle : inner pad stride * stride ≤ -1 * (stride : Int) :=
    mul_le_mul_of_nonneg_right (by omega) (by omega)
  have hpad := pad_le_inner hs pad
  omega

def place (pad stride dilation t : Nat) : Int := inner pad stride * stride - pad + t * dilation

theorem place_nonneg (hs : 0 < stride) (pad dilation t : Nat) : 0 ≤ place pad stride dilation t := by
  have hpad := pad_le_inner hs pad
  have hmul : (0 : Int) ≤ t * dilation := by positivity
  rw [place]
  omega

theorem place_lt (ht : t < kernel)
    (hsize : inner pad stride * stride - pad + dilation * ((kernel : Int) - 1) + 1 ≤ size) :
    place pad stride dilation t < size := by
  have hmul : (t : Int) * dilation ≤ dilation * ((kernel : Int) - 1) := by
    rw [mul_comm]
    exact mul_le_mul_of_nonneg_left (by omega) (by omega)
  rw [place]
  omega

theorem place_inj {t' : Nat} (hs : 0 < stride) (hd : 0 < dilation)
    (h : (place pad stride dilation t).toNat = (place pad stride dilation t').toNat) : t = t' := by
  have h₁ := place_nonneg hs pad dilation t
  have h₂ := place_nonneg hs pad dilation t'
  have heq : place pad stride dilation t = place pad stride dilation t' := by omega
  rw [place, place, Int.add_right_inj] at heq
  exact_mod_cast mul_right_cancel₀ (show (dilation : Int) ≠ 0 by omega) heq

theorem window_inner {pad' : Nat} (hs : 0 < stride) (hk : 0 < kernel)
    (hsize : inner pad stride * stride - pad + dilation * ((kernel : Int) - 1) + 1 ≤ size) :
    Window (inner pad stride).toNat stride pad pad' dilation kernel size := by
  have hnat : ((inner pad stride).toNat : Int) = inner pad stride := Int.toNat_of_nonneg (inner_nonneg hs pad)
  have hkernel : ((kernel - 1 : Nat) : Int) = kernel - 1 := by omega
  rw [Window]
  zify
  rw [hnat, hkernel]
  omega

end

variable {op : Operation} {xShape : Option (List Nat)} {actRange : Option (Int × Int)} {layer : Layer}

/-- The indices that the counterexample of a channel assigns. -/
def tapOf (op : Operation) (cout cg co : Nat) (t : List Nat) : List Nat :=
  tapIndex op.attrs (co / (cout / op.attrs.group)) cg
    (inner op.attrs.pads.1 op.attrs.strides.1 * op.attrs.strides.1 - op.attrs.pads.1)
    (inner op.attrs.pads.2.1 op.attrs.strides.2 * op.attrs.strides.2 - op.attrs.pads.2.1) t

theorem tapOf_eq (op : Operation) (cout cg co i j k : Nat) : tapOf op cout cg co [i, j, k] =
    [0, co / (cout / op.attrs.group) * cg + i,
      (place op.attrs.pads.1 op.attrs.strides.1 op.attrs.dilations.1 j).toNat,
      (place op.attrs.pads.2.1 op.attrs.strides.2 op.attrs.dilations.2 k).toNat] := rfl

variable {cout cg kh kw co : Nat} {t : List Nat}

theorem convCounterexample_eq (hshape : layer.wshape = [cout, cg, kh, kw]) (hattrs : layer.convAttrs = op.attrs)
    (hza : layer.za = op.za) (d : List Int) (co : Nat) :
    ∃ h w : Nat,
      inner op.attrs.pads.1 op.attrs.strides.1 * op.attrs.strides.1 - op.attrs.pads.1 +
        op.attrs.dilations.1 * ((kh : Int) - 1) + 1 ≤ h ∧
      inner op.attrs.pads.2.1 op.attrs.strides.2 * op.attrs.strides.2 - op.attrs.pads.2.1 +
        op.attrs.dilations.2 * ((kw : Int) - 1) + 1 ≤ w ∧
      convCounterexample layer d co = (((indices [cg, kh, kw]).zipIdx.foldl
        (fun x tn => assign x (tapOf op cout cg co tn.1) (op.za + d.getD tn.2 0))
        (NDArray.full [1, cg * op.attrs.group, h, w] op.za)).map (castTo layer.aDtype)) := by
  rw [convCounterexample, hshape, hattrs, hza]
  cases layer.geometry.bind Geometry.xHw with
  | none => exact ⟨_, _, Int.self_le_toNat _, Int.self_le_toNat _, rfl⟩
  | some hw =>
    exact ⟨_, _, (le_max_left _ _).trans (Int.self_le_toNat _), (le_max_left _ _).trans (Int.self_le_toNat _), rfl⟩

theorem tapOf_mem {h w : Nat} (hco : co < cout) (hgroups : op.attrs.group ∣ cout)
    (hh : inner op.attrs.pads.1 op.attrs.strides.1 * op.attrs.strides.1 - op.attrs.pads.1 +
      op.attrs.dilations.1 * ((kh : Int) - 1) + 1 ≤ h)
    (hw : inner op.attrs.pads.2.1 op.attrs.strides.2 * op.attrs.strides.2 - op.attrs.pads.2.1 +
      op.attrs.dilations.2 * ((kw : Int) - 1) + 1 ≤ w)
    (ht : t ∈ indices [cg, kh, kw]) : tapOf op cout cg co t ∈ indices [1, cg * op.attrs.group, h, w] := by
  obtain ⟨i, j, k, rfl, hi, hj, hk⟩ := exists_of_mem_indices_three ht
  have hy := place_lt hj hh
  have hz := place_lt hk hw
  have hy' := place_nonneg op.attrs.strides_pos.1 op.attrs.pads.1 op.attrs.dilations.1 j
  have hz' := place_nonneg op.attrs.strides_pos.2 op.attrs.pads.2.1 op.attrs.dilations.2 k
  rw [tapOf_eq, mem_indices_four]
  exact ⟨Nat.one_pos, group_channel hco hgroups hi, by omega, by omega⟩

theorem tapOf_inj {t' : List Nat} (ht : t ∈ indices [cg, kh, kw]) (ht' : t' ∈ indices [cg, kh, kw])
    (h : tapOf op cout cg co t = tapOf op cout cg co t') : t = t' := by
  obtain ⟨i, j, k, rfl, -⟩ := exists_of_mem_indices_three ht
  obtain ⟨i', j', k', rfl, -⟩ := exists_of_mem_indices_three ht'
  rw [tapOf_eq, tapOf_eq] at h
  simp only [List.cons.injEq, true_and, and_true] at h
  obtain ⟨hi, hj, hk⟩ := h
  rw [Nat.add_left_cancel hi, place_inj op.attrs.strides_pos.1 op.attrs.dilations_pos.1 hj,
    place_inj op.attrs.strides_pos.2 op.attrs.dilations_pos.2 hk]

theorem entry_filled {shape : List Nat} (za : Int) (dtype : Nat) (f : List Nat → Int)
    (hmem : ∀ t ∈ indices [cg, kh, kw], tapOf op cout cg co t ∈ indices shape) (ht : t ∈ indices [cg, kh, kw]) :
    entry (((indices [cg, kh, kw]).zipIdx.foldl
      (fun x tn => assign x (tapOf op cout cg co tn.1) (za + ((indices [cg, kh, kw]).map f).getD tn.2 0))
      (NDArray.full shape za)).map (castTo dtype)) (tapOf op cout cg co t) = castTo dtype (za + f t) := by
  have hkeys : ∀ tn ∈ (indices [cg, kh, kw]).zipIdx,
      tapOf op cout cg co tn.1 ∈ indices (NDArray.full shape za).shape :=
    fun tn htn => hmem tn.1 (fst_mem_of_mem_zipIdx htn)
  have hnodup : ((indices [cg, kh, kw]).zipIdx.map fun tn => tapOf op cout cg co tn.1).Nodup := by
    have hmap : (indices [cg, kh, kw]).zipIdx.map (fun tn => tapOf op cout cg co tn.1) =
        (indices [cg, kh, kw]).map (tapOf op cout cg co) := by
      rw [← zipIdx_map_fst 0 (indices [cg, kh, kw]), List.map_map, zipIdx_map_fst]
      rfl
    rw [hmap]
    exact (nodup_indices _).map_on fun t ht t' ht' => tapOf_inj ht ht'
  obtain ⟨n, hn, hget⟩ := mem_iff_getElem.mp ht
  have htn : (t, n) ∈ (indices [cg, kh, kw]).zipIdx := by
    rw [mk_mem_zipIdx_iff_getElem?, getElem?_eq_getElem hn, hget]
  have hd : ((indices [cg, kh, kw]).map f).getD n 0 = f t := by
    rw [getD_eq_getElem?_getD, getElem?_map, getElem?_eq_getElem hn, hget]
    rfl
  rw [entry, NDArray.get?_map, get?_foldl_assign hkeys hnodup htn, map_some, getD_some, hd]

/-- The counterexample of a channel makes its accumulator the sum at the vertex, at the first inner output. -/
theorem conv_vertex (hex : Extracts op xShape actRange layer) (hwf : op.WellFormed) (hle : layer.dLo ≤ layer.dHi)
    (hconv : op.isConv = true) (maximise : Bool) {w : List Int} (hw : layer.wq[co]? = some w) :
    ∃ oy ox,
      op.Valid (convCounterexample layer (vertexInput w layer.dLo layer.dHi maximise) co) (.conv 0 co oy ox) ∧
      (op.terms (convCounterexample layer (vertexInput w layer.dLo layer.dHi maximise) co) (.conv 0 co oy ox)).sum =
        biasAt layer.bias co + (w.map fun v => vertexAt layer.dLo layer.dHi maximise v * v).sum := by
  obtain ⟨cout, cg, kh, kw, hshape, hgeometry, hbias, hwq⟩ := hex.conv hconv
  have hco : co < cout := by
    have hlt := (List.getElem?_eq_some_iff.mp hw).1
    rw [hwq] at hlt
    simpa using hlt
  rw [hwq, getElem?_map_range _ hco] at hw
  cases hw
  obtain ⟨hkh, hkw⟩ := hwf.kernel _ _ _ _ hconv hshape
  have hgroups := hwf.groups _ _ _ _ hconv hshape
  obtain ⟨hs, hs'⟩ := op.attrs.strides_pos
  obtain ⟨hd, hd'⟩ := op.attrs.dilations_pos
  rw [vertexInput_eq, List.map_map]
  obtain ⟨h, w, hh, hw, hcex⟩ := convCounterexample_eq (hex.wshape.trans hshape) hex.attrs hex.za
    ((indices [cg, kh, kw]).map (vertexAt layer.dLo layer.dHi maximise ∘ fun t => op.weight co (co :: t))) co
  have hx : (convCounterexample layer ((indices [cg, kh, kw]).map
      (vertexAt layer.dLo layer.dHi maximise ∘ fun t => op.weight co (co :: t))) co).shape =
        [1, cg * op.attrs.group, h, w] := by
    rw [hcex, NDArray.map, foldl_assign_shape]
    rfl
  refine ⟨(inner op.attrs.pads.1 op.attrs.strides.1).toNat, (inner op.attrs.pads.2.1 op.attrs.strides.2).toNat, ?_, ?_⟩
  · exact ⟨hconv, 1, h, w, cout, cg, kh, kw, hshape, hx, Nat.one_pos, hco, window_inner hs hkh hh,
      window_inner hs' hkw hw⟩
  · have htap : ∀ t ∈ indices [cg, kh, kw], op.tap
        (convCounterexample layer ((indices [cg, kh, kw]).map
          (vertexAt layer.dLo layer.dHi maximise ∘ fun t => op.weight co (co :: t))) co) 0 co
        (inner op.attrs.pads.1 op.attrs.strides.1).toNat (inner op.attrs.pads.2.1 op.attrs.strides.2).toNat t =
          vertexAt layer.dLo layer.dHi maximise (op.weight co (co :: t)) := by
      intro t ht
      have hentry := entry_filled op.za layer.aDtype
        (vertexAt layer.dLo layer.dHi maximise ∘ fun t => op.weight co (co :: t))
        (fun t ht => tapOf_mem hco hgroups hh hw ht) ht
      obtain ⟨i, j, k, rfl, -, hj, hk⟩ := exists_of_mem_indices_three ht
      rw [Operation.tap, Int.toNat_of_nonneg (inner_nonneg hs _), Int.toNat_of_nonneg (inner_nonneg hs' _), hshape]
      rw [if_pos]
      · rw [hcex]
        refine (congrArg (· - op.za) hentry).trans ?_
        rw [Function.comp_apply, add_comm op.za, castTo_vertex hex hle, add_sub_cancel_right]
      · rw [hx]
        exact ⟨place_nonneg hs _ _ j, place_lt hj hh, place_nonneg hs' _ _ k, place_lt hk hw⟩
    rw [hbias, biasAt_eq hco (hwf.bias _ _ _ _ hconv hshape), List.map_map, Operation.terms, sum_cons, hshape]
    congr 2
    apply map_congr_left
    intro t ht
    rw [htap t ht]
    rfl

end Onnxsim.QuantInt.Counterexamples
