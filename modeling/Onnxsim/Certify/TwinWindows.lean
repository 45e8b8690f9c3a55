import Onnxsim.Certify.TwinOperators

namespace Onnxsim.Certify.TwinEncodings

open Lib.Results Overflow.Arrays Windows
  Shrinking Patches Twins TwinGrids
  TwinOperators

variable {𝕜 : Type} {space : Space 𝕜} {e : Leafs} {ls ls' : List Nat} {g : Axis × Axis} {l m : Int}

/-- Whenever the full encoding succeeds, with the lengths `l` and `m`, so does the reduced one, and they match. -/
def Follows (e : Leafs) (ls : List Nat) (g : Axis × Axis) (l m : Int) (full reduced : Except String (Grid 𝕜)) : Prop :=
  ∀ G, full = .ok G → ∃ G', reduced = .ok G' ∧ Matching e ls g G G' ∧ (G.rows : Int) = l ∧ (G.cols : Int) = m

variable {value value' : Nat → Except String (Grid 𝕜)} {attrs : Attrs 𝕜} {inputs : List (Option Nat)} {x y : Nat}
  {rest : List Nat}

theorem unary_follows {f : Term 𝕜 → Term 𝕜} (hf : Natural f) (hins : presentInputs inputs = x :: rest)
    (hx : Follows e ls g l m (value x) (value' x)) :
    Follows e ls g l m (unaryGrid f value inputs) (unaryGrid f value' inputs) := by
  intro Z hz
  cases rest with
  | cons y rest =>
    rw [unaryGrid, hins] at hz
    cases hz
  | nil =>
    rw [unaryGrid, hins] at hz
    obtain ⟨G, hG, hz₁⟩ := bind_eq_ok hz
    cases hz₁
    obtain ⟨G', hG', hmatch, hrows, hcols⟩ := hx G hG
    refine ⟨mapGrid f G', ?_, map_twin hf hmatch, hrows, hcols⟩
    rw [unaryGrid, hins]
    dsimp only
    rw [ok_bind hG']

variable {f : Term 𝕜 → Term 𝕜 → Term 𝕜} {w : Nat}

theorem binaryGrid_of_two (hins : presentInputs inputs = [x, y]) :
    binaryGrid f value inputs = value x >>= fun G => value y >>= fun X => zipGrids f G X := by
  rw [binaryGrid, hins]

theorem both_follows (hf : Natural₂ f) {h : Axis × Axis} (hins : presentInputs inputs = [x, y])
    (hstride : g.1.stride = h.1.stride ∧ g.2.stride = h.2.stride) (hdvd : g.1.stride ∣ (e.full.1 : Int) - e.reduced.1)
    (hdvd' : g.2.stride ∣ (e.full.2 : Int) - e.reduced.2) (hx : Follows e ls g l m (value x) (value' x))
    (hy : Follows e ls' h l m (value y) (value' y)) :
    Follows e (ls ++ ls') (join g.1 h.1, join g.2 h.2) l m (binaryGrid f value inputs) (binaryGrid f value' inputs) := by
  intro Z hz
  rw [binaryGrid_of_two hins] at hz
  obtain ⟨G, hG, hz₁⟩ := bind_eq_ok hz
  obtain ⟨X, hX, hz₂⟩ := bind_eq_ok hz₁
  obtain ⟨G', hG', hmatch, hrows, hcols⟩ := hx G hG
  obtain ⟨X', hX', hmatchX, hrowsX, hcolsX⟩ := hy X hX
  have hsameRows : G'.rows = X'.rows := by
    have hmoved := hmatch.rows.moved hdvd
    have hmovedX := hmatchX.rows.moved (hstride.1 ▸ hdvd)
    rw [← hstride.1, ← hmoved] at hmovedX
    have hcancel := mul_right_cancel₀ hmatch.rows.stride.ne' hmovedX
    omega
  have hsameCols : G'.cols = X'.cols := by
    have hmoved := hmatch.cols.moved hdvd'
    have hmovedX := hmatchX.cols.moved (hstride.2 ▸ hdvd')
    rw [← hstride.2, ← hmoved] at hmovedX
    have hcancel := mul_right_cancel₀ hmatch.cols.stride.ne' hmovedX
    omega
  obtain ⟨Z', hZ', hmatchZ, hZrows, hZcols, _, _⟩ :=
    zip_both hf hmatch hmatchX hstride ⟨by omega, hsameRows⟩ ⟨by omega, hsameCols⟩ hz₂
  refine ⟨Z', ?_, hmatchZ, by rw [hZrows, hrows], by rw [hZcols, hcols]⟩
  rw [binaryGrid_of_two hins, ok_bind hG', ok_bind hX']
  exact hZ'

theorem withConst_follows (hf : Natural₂ f) {z : Nat} {K : Grid 𝕜} (hins : presentInputs inputs = [x, y])
    (hsides : (z = x ∧ w = y) ∨ (z = y ∧ w = x)) (hK : Flat K) (hw : ∀ G, value w = .ok G → G = K ∧ value' w = .ok K)
    (hz : Follows e ls g l m (value z) (value' z)) :
    Follows e ls g l m (binaryGrid f value inputs) (binaryGrid f value' inputs) := by
  intro Z hrun
  rw [binaryGrid_of_two hins] at hrun ⊢
  obtain ⟨G, hG, hrun₁⟩ := bind_eq_ok hrun
  obtain ⟨X, hX, hrun₂⟩ := bind_eq_ok hrun₁
  rcases hsides with ⟨rfl, rfl⟩ | ⟨rfl, rfl⟩
  · obtain ⟨G', hG', hmatch, hrows, hcols⟩ := hz G hG
    obtain ⟨rfl, hK'⟩ := hw X hX
    obtain ⟨Z', hZ', hmatchZ, hZrows, hZcols, _, _⟩ := zip_flat hf hmatch hK hrun₂
    refine ⟨Z', ?_, hmatchZ, by rw [hZrows, hrows], by rw [hZcols, hcols]⟩
    rw [ok_bind hG', ok_bind hK']
    exact hZ'
  · obtain ⟨X', hX', hmatch, hrows, hcols⟩ := hz X hX
    obtain ⟨rfl, hK'⟩ := hw G hG
    rw [zipGrids_flip] at hrun₂
    obtain ⟨Z', hZ', hmatchZ, hZrows, hZcols, _, _⟩ := zip_flat (natural_flip hf) hmatch hK hrun₂
    refine ⟨Z', ?_, hmatchZ, by rw [hZrows, hrows], by rw [hZcols, hcols]⟩
    rw [ok_bind hK', ok_bind hX', zipGrids_flip]
    exact hZ'

variable [Field 𝕜]

theorem clip_follows (hins : presentInputs inputs = x :: rest) (hx : Follows e ls g l m (value x) (value' x)) :
    Follows e ls g l m (opClip space value inputs) (opClip space value' inputs) := by
  intro Z hz
  unfold opClip at hz
  split at hz
  · next x' bounds =>
    have hsame : x' = x := (List.cons.inj hins).1
    rw [hsame] at hz ⊢
    obtain ⟨G, hG, hz₁⟩ := bind_eq_ok hz
    obtain ⟨lo, hlo, hz₂⟩ := bind_eq_ok hz₁
    obtain ⟨hi, hhi, hz₃⟩ := bind_eq_ok hz₂
    cases hz₃
    obtain ⟨G', hG', hmatch, hrows, hcols⟩ := hx G hG
    refine ⟨mapGrid (clip lo hi) G', ?_, map_twin (natural_clip lo hi) hmatch, hrows, hcols⟩
    rw [opClip, ok_bind hG', ok_bind hlo, ok_bind hhi]
  · cases hz

variable {sqrt : 𝕜 → 𝕜} {name : OpType}

theorem batchNorm_follows (hins : presentInputs inputs = x :: rest) (hx : Follows e ls g l m (value x) (value' x)) :
    Follows e ls g l m (opBatchNormalization sqrt space value attrs inputs)
      (opBatchNormalization sqrt space value' attrs inputs) := by
  intro Z hz
  unfold opBatchNormalization at hz
  split at hz
  · next x' scale bias mean var tail =>
    have hsame : x' = x := (List.cons.inj hins).1
    rw [hsame] at hz ⊢
    obtain ⟨G, hG, hz₁⟩ := bind_eq_ok hz
    obtain ⟨s, hs, hz₂⟩ := bind_eq_ok hz₁
    obtain ⟨b, hb, hz₃⟩ := bind_eq_ok hz₂
    obtain ⟨μ, hμ, hz₄⟩ := bind_eq_ok hz₃
    obtain ⟨v, hv, hz₅⟩ := bind_eq_ok hz₄
    obtain ⟨G', hG', hmatch, hrows, hcols⟩ := hx G hG
    obtain ⟨Z', hZ', hmatchZ, hZrows, hZcols, _, _⟩ := batchNorm_twin hmatch hz₅
    refine ⟨Z', ?_, hmatchZ, by rw [hZrows, hrows], by rw [hZcols, hcols]⟩
    rw [opBatchNormalization, ok_bind hG', ok_bind hs, ok_bind hb, ok_bind hμ, ok_bind hv]
    exact hZ'
  · cases hz

theorem elementwise_follows (hname : isElementwise name = true) (hins : presentInputs inputs = x :: rest)
    (hx : Follows e ls g l m (value x) (value' x)) :
    Follows e ls g l m (opGrid sqrt space value attrs inputs name) (opGrid sqrt space value' attrs inputs name) := by
  cases name with
  | batchNormalization => exact batchNorm_follows hins hx
  | identity => exact unary_follows natural_id hins hx
  | relu => exact unary_follows natural_relu hins hx
  | neg => exact unary_follows natural_neg hins hx
  | clip => exact clip_follows hins hx
  | conv | add | sub | mul | other name => cases hname

theorem binary_cases (sqrt : 𝕜 → 𝕜) (space : Space 𝕜) (hname : isBinary name = true) :
    ∃ f : Term 𝕜 → Term 𝕜 → Term 𝕜, Natural₂ f ∧
      ∀ value, opGrid sqrt space value attrs inputs name = binaryGrid f value inputs := by
  cases name with
  | add => exact ⟨_, natural_add, fun _ => rfl⟩
  | sub => exact ⟨_, natural_sub, fun _ => rfl⟩
  | mul => exact ⟨_, natural_mul, fun _ => rfl⟩
  | conv | batchNormalization | neg | identity | relu | clip | other name => cases hname

theorem conv_follows {weight : NDArray 𝕜} {h v : ConvAxis} (hins : presentInputs inputs = x :: w :: rest)
    (hweight : space.defs[w]? = some (.const weight)) (hh : convAxis attrs weight.shape 0 = .ok h)
    (hv : convAxis attrs weight.shape 1 = .ok v) (hhp : Plannable h) (hvp : Plannable v)
    (hdvd : (convPatch h g.1).stride ∣ (e.full.1 : Int) - e.reduced.1)
    (hdvd' : (convPatch v g.2).stride ∣ (e.full.2 : Int) - e.reduced.2)
    (hint : ∃ p, Interior (convPatch h g.1) e.reduced.1 p) (hint' : ∃ p, Interior (convPatch v g.2) e.reduced.2 p)
    (hx : Follows e ls g l m (value x) (value' x)) :
    Follows e ls (convPatch h g.1, convPatch v g.2) (h.len l) (v.len m) (opConv space value attrs inputs)
      (opConv space value' attrs inputs) := by
  intro Z hz
  rw [opConv, hins] at hz
  obtain ⟨G, hG, hz₁⟩ := bind_eq_ok hz
  obtain ⟨weight', hweight', hz₂⟩ := bind_eq_ok hz₁
  obtain ⟨bias, hbias, hz₃⟩ := bind_eq_ok hz₂
  have hconcrete : concrete space (some w) = .ok weight := by rw [concrete, hweight]
  rw [hconcrete] at hweight'
  cases hweight'
  obtain ⟨G', hG', hmatch, hrows, hcols⟩ := hx G hG
  obtain ⟨p, hp⟩ := hint
  obtain ⟨q, hq⟩ := hint'
  have hpin := interior_mem (conv_aligned hhp hmatch.rows) hp
  have hqin := interior_mem (conv_aligned hvp hmatch.cols) hq
  obtain ⟨Z', hZ', hmatchZ, hZrows, hZcols, _, _⟩ :=
    conv_twin hmatch hh hv hhp hvp hdvd hdvd' (hpin.1.trans hpin.2.le) (hqin.1.trans hqin.2.le) hz₃
  refine ⟨Z', ?_, hmatchZ, by rw [hZrows, hrows], by rw [hZcols, hcols]⟩
  rw [opConv, hins]
  dsimp only
  rw [ok_bind hG', ok_bind hconcrete, ok_bind hbias]
  exact hZ'

end Onnxsim.Certify.TwinEncodings

namespace Onnxsim.Certify.TwinWindows

open List Lib.Results Overflow.Arrays Windows
  Shrinking Patches Twins TwinGrids
  TwinOperators TwinEncodings

variable {a : ConvAxis} {𝕜 : Type} {space : Space 𝕜} {cut : Nat → Bool} {ls : List Nat} {i : Nat} {g : Axis × Axis}

theorem convAxis_plannable {attrs : Attrs 𝕜} {kernel : List Nat} {ax : Nat} (hkernel : ∀ k ∈ kernel.drop 2, 0 < k)
    (hpads : attrs.pads.any (· < 0) = false) (ha : convAxis attrs kernel ax = .ok a) : Plannable a := by
  have hpad : ∀ p : Int, ∀ j : Nat, attrs.pads[j]? = some p → 0 ≤ p := by
    intro p j hp
    have hmem := List.any_eq_false.mp hpads p (mem_of_getElem? hp)
    rw [decide_eq_true_iff, not_lt] at hmem
    exact hmem
  rw [convAxis] at ha
  split at ha
  · next k s d before after hk hs hd hbefore hafter =>
    split at ha
    · cases ha
    · next hs0 =>
      cases ha
      refine ⟨hkernel k ?_, Nat.pos_of_ne_zero hs0, hpad before ax hbefore, hpad after _ hafter⟩
      rw [mem_iff_getElem?]
      exact ⟨ax, by rw [getElem?_drop]; exact hk⟩
  · cases ha

/-- The patches of an accepted tensor. -/
structure Sound (g : Axis) : Prop where
  stride : 0 < g.stride
  lead : 0 ≤ g.lead

theorem sound_conv {g : Axis} (ha : Plannable a) (hg : Sound g) : Sound (convPatch a g) := by
  have hs : (0 : Int) < a.stride := by exact_mod_cast ha.stride
  exact ⟨mul_pos hg.stride hs, add_nonneg hg.lead (mul_nonneg ha.before hg.stride.le)⟩

theorem sound_join {g h : Axis} (hg : Sound g) : Sound (join g h) := ⟨hg.stride, hg.lead.trans (le_max_left _ _)⟩

theorem interior_operand {g : Axis} {n : Int} (ha : Plannable a) (hg : Sound g)
    (h : ∃ p : Nat, Interior (convPatch a g) n p) : ∃ q : Nat, Interior g n q := by
  obtain ⟨p, hp⟩ := h
  have hplace := interior_conv ha hg.stride hp
  have hnonneg : 0 ≤ a.place p 0 := by
    by_contra hneg
    have hmul := mul_neg_of_neg_of_pos (not_le.mp hneg) hg.stride
    have hlead := hg.lead
    have hleft := hplace.1
    omega
  refine ⟨(a.place p 0).toNat, ?_⟩
  rw [Int.toNat_of_nonneg hnonneg]
  exact hplace

theorem local_sound (h : Local space cut i g ls) : Sound g.1 ∧ Sound g.2 := by
  induction h with
  | leaf => exact ⟨⟨by decide, by decide⟩, ⟨by decide, by decide⟩⟩
  | conv hdef hcut hins hweight hpads hh hv _ ih =>
    have hkernel := space.kernels _ _ _ _ _ _ _ _ _ hdef hins hweight
    exact ⟨sound_conv (convAxis_plannable hkernel hpads hh) ih.1, sound_conv (convAxis_plannable hkernel hpads hv) ih.2⟩
  | elementwise _ _ _ _ _ _ _ ih => exact ih
  | withConst _ _ _ _ _ _ _ _ ih => exact ih
  | both _ _ _ _ _ _ _ _ _ ihx _ => exact ⟨sound_join ihx.1, sound_join ihx.2⟩

variable {ax : Nat} {n l : Int} {fuel x y z : Nat} {domain : String} {name : OpType} {attrs : Attrs 𝕜}
  {inputs : List (Option Nat)} {out : Nat}

theorem slen_leaf (hleaf : IsLeaf space cut i) (h : slen space cut ax n fuel i = .ok l) : l = n := by
  cases fuel with
  | zero => cases h
  | succ fuel =>
    rcases hleaf with ⟨name, hdef⟩ | ⟨domain, name, attrs, inputs, out, hdef, hcut⟩
    · rw [slen, hdef] at h
      cases h
      rfl
    · rw [slen, hdef] at h
      dsimp only at h
      rw [if_pos hcut] at h
      cases h
      rfl

theorem slen_conv {rest : List Nat} {w : Nat} {weight : NDArray 𝕜}
    (hdef : space.defs[i]? = some (.op domain .conv attrs inputs out)) (hcut : cut i = false)
    (hins : presentInputs inputs = x :: w :: rest) (hweight : space.defs[w]? = some (.const weight))
    (ha : convAxis attrs weight.shape ax = .ok a) (h : slen space cut ax n fuel i = .ok l) :
    ∃ fuel' lx, slen space cut ax n fuel' x = .ok lx ∧ l = a.len lx := by
  cases fuel with
  | zero => cases h
  | succ fuel =>
    rw [slen, hdef] at h
    dsimp only at h
    rw [if_neg (by rw [hcut]; decide), if_pos rfl, hins] at h
    dsimp only at h
    rw [hweight] at h
    obtain ⟨lx, hx, h₁⟩ := bind_eq_ok h
    rw [ok_bind ha] at h₁
    cases h₁
    exact ⟨fuel, lx, hx, rfl⟩

theorem sameLen_eq_ok {lens : List Int} (h : sameLen lens = .ok l) : ∀ k ∈ lens, k = l := by
  cases lens with
  | nil => cases h
  | cons k rest =>
    rw [sameLen] at h
    split at h
    · next hall =>
      cases h
      intro m hm
      rcases mem_cons.mp hm with rfl | hm
      · rfl
      · exact of_decide_eq_true (List.all_eq_true.mp hall m hm)
    · cases h

theorem slen_operand (hdef : space.defs[i]? = some (.op domain name attrs inputs out)) (hcut : cut i = false)
    (hname : name ≠ .conv) (hx : x ∈ presentInputs inputs) (hconst : isConst space x = false)
    (h : slen space cut ax n fuel i = .ok l) : ∃ fuel', slen space cut ax n fuel' x = .ok l := by
  cases fuel with
  | zero => cases h
  | succ fuel =>
    rw [slen, hdef] at h
    dsimp only at h
    rw [if_neg (by rw [hcut]; decide), if_neg hname] at h
    obtain ⟨lens, hlens, h₁⟩ := bind_eq_ok h
    have hmem : x ∈ (presentInputs inputs).filter fun x => !isConst space x :=
      mem_filter.mpr ⟨hx, by rw [hconst]; rfl⟩
    obtain ⟨k, hk⟩ := ok_of_mapM hlens hmem
    have hforall := mapM_eq_ok hlens
    have hin : k ∈ lens := by
      obtain ⟨k', hk', hkk⟩ := forall₂_exists_left hforall.flip hmem
      rw [hk] at hkk
      cases hkk
      exact hk'
    rw [sameLen_eq_ok h₁ k hin] at hk
    exact ⟨fuel, hk⟩

theorem through_operand (hdef : space.defs[i]? = some (.op domain name attrs inputs out)) (hcut : cut i = false)
    (hname : name ≠ .conv) (hx : x ∈ presentInputs inputs) (hconst : isConst space x = false) ⦃ax s s' : Nat⦄
    ⦃n n' l l' : Int⦄ ⦃P : Prop⦄
    (h : ∀ {f f'}, slen space cut ax n f x = .ok l → slen space cut ax n' f' x = .ok l' → P)
    (hl : slen space cut ax n s i = .ok l) (hl' : slen space cut ax n' s' i = .ok l') : P := by
  obtain ⟨f, hfx⟩ := slen_operand hdef hcut hname hx hconst hl
  obtain ⟨f', hfx'⟩ := slen_operand hdef hcut hname hx hconst hl'
  exact h hfx hfx'

variable {c : NDArray 𝕜}

theorem ne_conv (h : isElementwise name = true ∨ isBinary name = true) : name ≠ .conv := by
  rintro rfl
  cases h with
  | inl h => cases h
  | inr h => cases h

theorem mem_sides (hins : presentInputs inputs = [x, y])
    (hsides : (z = x ∧ space.defs[y]? = some (.const c)) ∨ (z = y ∧ space.defs[x]? = some (.const c))) :
    z ∈ presentInputs inputs := by
  rw [hins]
  rcases hsides with ⟨rfl, _⟩ | ⟨rfl, _⟩
  · exact mem_cons_self
  · exact mem_cons_of_mem _ mem_cons_self

variable {overs : Nat → Option (List Nat)} {e : Leafs}

/-- The shapes of the leaves at both extents. -/
structure Shaped (space : Space 𝕜) (overs : Nat → Option (List Nat)) (e : Leafs) (ls : List Nat) : Prop where
  full : ∀ i ∈ ls, space.shape i = some [e.batch i, e.channels i, e.full.1, e.full.2]
  reduced : ∀ i ∈ ls, overs i = some [1, e.channels i, e.reduced.1, e.reduced.2]

theorem Shaped.mono {space : Space 𝕜} {overs : Nat → Option (List Nat)} {e : Leafs} {ls ls' : List Nat}
    (h : Shaped space overs e ls) (hsub : ls' ⊆ ls) : Shaped space overs e ls' :=
  ⟨fun i hi => h.full i (hsub hi), fun i hi => h.reduced i (hsub hi)⟩

theorem leafShape_shaped (hs : Shaped space overs e [i]) {shape : List Nat}
    (h : leafShape space (fun _ => none) i = .ok shape) :
    shape = [e.batch i, e.channels i, e.full.1, e.full.2] ∧
      leafShape space overs i = .ok [1, e.channels i, e.reduced.1, e.reduced.2] := by
  rw [leafShape, Option.none_or, hs.full i (mem_singleton_self i)] at h
  dsimp only at h
  rw [leafShape, hs.reduced i (mem_singleton_self i), Option.some_or]
  split at h
  · next hfloat =>
    cases h
    exact ⟨rfl, if_pos hfloat⟩
  · cases h

theorem leaf_follows (hs : Shaped space overs e [i]) {l m : Int} (hl : l = e.full.1) (hm : m = e.full.2) :
    Follows e [i] (unitAxis, unitAxis) l m (leafShape space (fun _ => none) i >>= leafGrid i)
      (leafShape space overs i >>= (leafGrid i : List Nat → Except String (Grid 𝕜))) := by
  intro G hG
  obtain ⟨shape, hshape, hG₁⟩ := bind_eq_ok hG
  obtain ⟨rfl, hred⟩ := leafShape_shaped hs hshape
  cases hG₁
  refine ⟨_, ?_, leaf_twin i, hl.symm, hm.symm⟩
  rw [ok_bind hred]
  rfl

variable [Field 𝕜] {sqrt : 𝕜 → 𝕜}

theorem encode_const {v : NDArray 𝕜} {overs' : Nat → Option (List Nat)} (h : space.defs[i]? = some (.const v))
    {G K : Grid 𝕜} (hK : constGrid v = .ok K) (hG : encode sqrt space cut overs fuel i = .ok G) :
    G = K ∧ encode sqrt space cut overs' fuel i = .ok K := by
  cases fuel with
  | zero => cases hG
  | succ fuel =>
    rw [encode, h] at hG ⊢
    dsimp only at hG ⊢
    rw [hK] at hG
    cases hG
    exact ⟨rfl, hK⟩

theorem encode_op {domain : String} {name : OpType} {attrs : Attrs 𝕜} {inputs : List (Option Nat)} {out : Nat}
    (hdef : space.defs[i]? = some (.op domain name attrs inputs out)) (hcut : cut i = false) {l m : Int}
    (h : ∀ fuel, Follows e ls g l m (opGrid sqrt space (encode sqrt space cut (fun _ => none) fuel) attrs inputs name)
      (opGrid sqrt space (encode sqrt space cut overs fuel) attrs inputs name)) :
    Follows e ls g l m (encode sqrt space cut (fun _ => none) fuel i) (encode sqrt space cut overs fuel i) := by
  intro G hG
  cases fuel with
  | zero => cases hG
  | succ fuel =>
    rw [encode, hdef] at hG ⊢
    dsimp only at hG ⊢
    have hnot : ¬ cut i = true := by
      rw [hcut]
      decide
    rw [if_neg hnot] at hG ⊢
    by_cases hdomain : domain ≠ "" ∧ domain ≠ "ai.onnx"
    · rw [if_pos hdomain] at hG
      cases hG
    · rw [if_neg hdomain] at hG ⊢
      by_cases hout : out ≠ 0
      · rw [if_pos hout] at hG
        cases hG
      · rw [if_neg hout] at hG ⊢
        exact h fuel G hG

theorem encode_follows (hs : Shaped space overs e ls) (hlocal : Local space cut i g ls)
    (hdvd : g.1.stride ∣ (e.full.1 : Int) - e.reduced.1) (hdvd' : g.2.stride ∣ (e.full.2 : Int) - e.reduced.2)
    (hint : ∃ p : Nat, Interior g.1 e.reduced.1 p) (hint' : ∃ p : Nat, Interior g.2 e.reduced.2 p) {s s' : Nat} {l m : Int}
    (hl : slen space cut 0 e.full.1 s i = .ok l) (hm : slen space cut 1 e.full.2 s' i = .ok m) :
    Follows e ls g l m (encode sqrt space cut (fun _ => none) fuel i) (encode sqrt space cut overs fuel i) := by
  induction hlocal generalizing fuel s s' l m with
  | leaf hleaf =>
    intro G hG
    have hfollow := leaf_follows hs (slen_leaf hleaf hl) (slen_leaf hleaf hm) G
    cases fuel with
    | zero => cases hG
    | succ fuel =>
      rcases hleaf with ⟨name, hdef⟩ | ⟨domain, name, attrs, inputs, out, hdef, hcut⟩
      · rw [encode, hdef] at hG ⊢
        exact hfollow hG
      · rw [encode, hdef] at hG ⊢
        dsimp only at hG ⊢
        rw [if_pos hcut] at hG ⊢
        exact hfollow hG
  | conv hdef hcut hins hweight hpads hh hv hx ih =>
    have hkernel := space.kernels _ _ _ _ _ _ _ _ _ hdef hins hweight
    have hhp := convAxis_plannable hkernel hpads hh
    have hvp := convAxis_plannable hkernel hpads hv
    obtain ⟨s₁, lx, hlx, rfl⟩ := slen_conv hdef hcut hins hweight hh hl
    obtain ⟨s₂, mx, hmx, rfl⟩ := slen_conv hdef hcut hins hweight hv hm
    have hsound := local_sound hx
    have hp := interior_operand hhp hsound.1 hint
    have hq := interior_operand hvp hsound.2 hint'
    apply encode_op hdef hcut
    intro fuel
    apply conv_follows hins hweight hh hv hhp hvp hdvd hdvd' (hint.imp' _ fun _ => id) (hint'.imp' _ fun _ => id)
    exact ih hs ((Dvd.intro _ rfl).trans hdvd) ((Dvd.intro _ rfl).trans hdvd') hp hq hlx hmx
  | elementwise hdef hcut hname hins hconst hrest _ ih =>
    have hconv := ne_conv (.inl hname)
    have hmem := hins ▸ mem_cons_self
    obtain ⟨s₁, hl'⟩ := slen_operand hdef hcut hconv hmem hconst hl
    obtain ⟨s₂, hm'⟩ := slen_operand hdef hcut hconv hmem hconst hm
    apply encode_op hdef hcut
    intro fuel
    exact elementwise_follows hname hins (ih hs hdvd hdvd' hint hint' hl' hm')
  | withConst hdef hcut hname hins hsides hconst huniform _ ih =>
    have hconv := ne_conv (.inr hname)
    have hmem := mem_sides hins hsides
    obtain ⟨s₁, hl'⟩ := slen_operand hdef hcut hconv hmem hconst hl
    obtain ⟨s₂, hm'⟩ := slen_operand hdef hcut hconv hmem hconst hm
    obtain ⟨K, hK, hflat⟩ := flat_constGrid huniform
    apply encode_op hdef hcut
    intro fuel
    obtain ⟨f, hf, hop⟩ := binary_cases sqrt space hname
    rw [hop, hop]
    rcases hsides with ⟨hzx, hc⟩ | ⟨hzy, hc⟩
    · exact withConst_follows hf hins (.inl ⟨hzx, rfl⟩) hflat (fun G hG => encode_const hc hK hG)
        (ih hs hdvd hdvd' hint hint' hl' hm')
    · exact withConst_follows hf hins (.inr ⟨hzy, rfl⟩) hflat (fun G hG => encode_const hc hK hG)
        (ih hs hdvd hdvd' hint hint' hl' hm')
  | both hdef hcut hname hins hxconst hyconst hstrides _ _ ihx ihy =>
    have hconv := ne_conv (.inr hname)
    have hmemx := hins ▸ mem_cons_self
    have hmemy := hins ▸ mem_cons_of_mem _ mem_cons_self
    obtain ⟨s₁, hlx⟩ := slen_operand hdef hcut hconv hmemx hxconst hl
    obtain ⟨s₂, hmx⟩ := slen_operand hdef hcut hconv hmemx hxconst hm
    obtain ⟨s₃, hly⟩ := slen_operand hdef hcut hconv hmemy hyconst hl
    obtain ⟨s₄, hmy⟩ := slen_operand hdef hcut hconv hmemy hyconst hm
    apply encode_op hdef hcut
    intro fuel
    obtain ⟨f, hf, hop⟩ := binary_cases sqrt space hname
    rw [hop, hop]
    apply both_follows hf hins hstrides hdvd hdvd'
    · exact ihx (hs.mono (subset_append_left _ _)) hdvd hdvd' (hint.imp fun _ => interior_left) (hint'.imp fun _ => interior_left) hlx hmx
    · exact ihy (hs.mono (subset_append_right _ _)) (hstrides.1 ▸ hdvd) (hstrides.2 ▸ hdvd') (hint.imp fun _ hp => interior_right hp hstrides.1)
        (hint'.imp fun _ hp => interior_right hp hstrides.2) hly hmy

end Onnxsim.Certify.TwinWindows
