import Onnxsim.Reduce.Mapping

namespace Onnxsim.Reduce.Exactness

open List Option Lib.Reductions Axes Fusion Mapping

/-- A node that `ResolveAxes` takes for a reduction of everything and that is an identity. -/
def Misread (node : ReduceNode) : Prop := node.axes = .omitted ∧ node.noopWithEmptyAxes.getD 0 ≠ 0

instance (node : ReduceNode) : Decidable (Misread node) := inferInstanceAs (Decidable (_ ∧ _))

/-- The keepdims setting that `n` sees the axes of `a` through. -/
def seenKeeps (p : Pair) : Bool := if p.reshape.isSome then !keeps p.a else keeps p.a

/-- Every axis that `a` reduces is reduced by `n` as well. -/
def ReducedTwice (p : Pair) (rank : Nat) : Prop :=
  ∃ maskA maskB, reach p.a rank = some (.along maskA) ∧ reach p.n rank = some (.along maskB) ∧ Within maskA maskB

/-- When the fused node does what the pair does; `out` is the shape of the pair's result. -/
def FusesWell (p : Pair) (dims out : List Nat) : Prop :=
  if Misread p.a ∨ Misread p.n then
    out = (if keeps p.n then List.replicate dims.length 1 else []) ∧
      ¬(Misread p.a ∧ p.reshape = none ∧ keeps p.a = false ∧ spelledAxes p.n.axes ≠ some [])
  else keeps p.n = seenKeeps p ∨ dims = [] ∨ (seenKeeps p = true ∧ ReducedTwice p dims.length)

variable {rank : Nat} {as axes aAxes : List Int} {node fused : ReduceNode} {known : Option Nat} {ρ : Reach}
  {keep : Bool} {addYIfNegative : Int → Int → Int} (hadd : ∀ a r, addYIfNegative a r = if a < 0 then a + r else a)
  {raw : List Int}

include hadd in
theorem mapM_axisOf (h : raw.mapM (axisOf rank) = some as) :
    as = (raw.map fun a => addYIfNegative a rank) ∧ ∀ a ∈ as, 0 ≤ a ∧ a < rank := by
  induction raw generalizing as with
  | nil =>
    obtain rfl := Option.some.inj h
    simp
  | cons a raw ih =>
    simp only [mapM_cons, bind_eq_bind, bind_eq_some_iff, Option.pure_def, Option.some.injEq] at h
    obtain ⟨c, hc, rest, hrest, rfl⟩ := h
    obtain ⟨hmap, hrange⟩ := ih hrest
    have hself : c = addYIfNegative a rank ∧ 0 ≤ c ∧ c < rank := by
      rw [hadd]
      unfold axisOf at hc
      by_cases hpos : 0 ≤ a ∧ a < rank
      · rw [if_pos hpos] at hc
        obtain rfl := Option.some.inj hc
        exact ⟨(if_neg (by omega)).symm, hpos⟩
      · rw [if_neg hpos] at hc
        by_cases hneg : a < 0 ∧ -(rank : Int) ≤ a
        · rw [if_pos hneg] at hc
          obtain rfl := Option.some.inj hc
          exact ⟨(if_pos hneg.1).symm, by omega, by omega⟩
        · rw [if_neg hneg] at hc
          cases hc
    refine ⟨by rw [map_cons, hmap, hself.1], ?_⟩
    intro b hb
    cases mem_cons.mp hb with
    | inl heq =>
      rw [heq]
      exact hself.2
    | inr hmem => exact hrange b hmem

theorem mapM_axisOf_nonneg (h : ∀ a ∈ raw, 0 ≤ a ∧ a < (rank : Int)) : raw.mapM (axisOf rank) = some raw := by
  induction raw with
  | nil => rfl
  | cons a raw ih =>
    have ha : axisOf rank a = some a := if_pos (h a mem_cons_self)
    rw [mapM_cons, ha, ih fun b hb => h b (mem_cons_of_mem a hb)]
    rfl

theorem mapM_axisOf_outside (h : ∃ a ∈ raw, (rank : Int) ≤ a) : raw.mapM (axisOf rank) = none := by
  induction raw with
  | nil => simp at h
  | cons a raw ih =>
    rw [mapM_cons]
    cases ha : axisOf rank a with
    | none => rfl
    | some b =>
      have hrest : raw.mapM (axisOf rank) = none := by
        obtain ⟨c, hc, hle⟩ := h
        cases mem_cons.mp hc with
        | inl heq =>
          have hnone : axisOf rank a = none := by
            unfold axisOf
            rw [if_neg (by omega), if_neg (by omega)]
          rw [hnone] at ha
          cases ha
        | inr hmem => exact ih ⟨c, hmem, hle⟩
      rw [hrest]
      rfl

theorem mem_allAxes {a : Int} : a ∈ allAxes rank ↔ 0 ≤ a ∧ a < (rank : Int) := by
  simp only [allAxes, List.mem_map, mem_range]
  constructor
  · rintro ⟨i, hi, rfl⟩
    omega
  · intro h
    exact ⟨a.toNat, by omega, by omega⟩

/-- What the pass takes a node to reduce, and what the node does reduce. -/
structure Resolved (node : ReduceNode) (known : Option Nat) (rank : Nat) (axes : List Int) (ρ : Reach) : Prop where
  misread : Misread node → known = some rank ∧ axes = allAxes rank ∧ ρ = .identity
  exact : ¬Misread node → ρ = .along (maskOf axes rank)
  range : ∀ a ∈ axes, 0 ≤ a ∧ a < (rank : Int)
  empty : axes = [] → rank = 0

theorem resolved_all (hknown : known = none ∨ known = some rank)
    (h : (known.map fun r => (allAxes r, false)) = some (axes, false))
    (hρ : (if node.noopWithEmptyAxes.getD 0 ≠ 0 then some Reach.identity
      else some (Reach.along (List.replicate rank true))) = some ρ)
    (hmis : Misread node ↔ node.noopWithEmptyAxes.getD 0 ≠ 0) : Resolved node known rank axes ρ := by
  obtain ⟨r, hr, heq⟩ := map_eq_some_iff.mp h
  have hsome : known = some rank := by
    cases hknown with
    | inl hnone =>
      rw [hnone] at hr
      cases hr
    | inr hsome => exact hsome
  obtain rfl : rank = r := Option.some.inj (hsome.symm.trans hr)
  obtain rfl : allAxes rank = axes := congrArg Prod.fst heq
  constructor
  · intro hm
    rw [if_pos (hmis.mp hm)] at hρ
    exact ⟨hsome, rfl, (Option.some.inj hρ).symm⟩
  · intro hm
    rw [if_neg (fun h => hm (hmis.mpr h))] at hρ
    rw [maskOf_allAxes]
    exact (Option.some.inj hρ).symm
  · intro a ha
    exact mem_allAxes.mp ha
  · intro hnil
    by_contra hpos
    have hzero : (0 : Int) ∈ allAxes rank := mem_allAxes.mpr (by omega)
    rw [hnil] at hzero
    cases hzero

include hadd in
theorem normalizeAxes_eq (hknown : known = none ∨ known = some rank)
    (h : normalizeAxes addYIfNegative raw known = some axes) (has : raw.mapM (axisOf rank) = some as) : axes = as := by
  obtain ⟨hmap, -⟩ := mapM_axisOf hadd has
  cases hknown with
  | inl hnone =>
    subst hnone
    rw [normalizeAxes] at h
    by_cases hneg : raw.any fun a => a < 0
    · rw [if_pos hneg] at h
      cases h
    · rw [if_neg hneg] at h
      obtain rfl := Option.some.inj h
      rw [hmap, ← List.map_id raw, List.map_map]
      apply map_congr_left
      intro a ha
      have hpos : ¬a < 0 := fun hlt => hneg (List.any_eq_true.mpr ⟨a, ha, decide_eq_true hlt⟩)
      rw [Function.comp_apply, id, hadd, if_neg hpos]
  | inr hsome =>
    subst hsome
    rw [hmap]
    exact (Option.some.inj h).symm

include hadd in
theorem resolved_spelled (hraw : raw ≠ []) (hspelled : node.axes ≠ .omitted)
    (hknown : known = none ∨ known = some rank) (h : normalizeAxes addYIfNegative raw known = some axes)
    (hρ : ((raw.mapM (axisOf rank)).map fun as => Reach.along (maskOf as rank)) = some ρ) :
    Resolved node known rank axes ρ := by
  obtain ⟨as, has, hover⟩ := map_eq_some_iff.mp hρ
  obtain ⟨hmap, hrange⟩ := mapM_axisOf hadd has
  have haxes := normalizeAxes_eq hadd hknown h has
  subst haxes
  constructor
  · exact fun hm => absurd hm.1 hspelled
  · exact fun _ => hover.symm
  · exact hrange
  · intro hnil
    rw [hnil] at hmap
    exact absurd (map_eq_nil_iff.mp hmap.symm) hraw

include hadd in
theorem resolveAxes_resolved (hknown : known = none ∨ known = some rank)
    (h : resolveAxes addYIfNegative node known = some (axes, false)) (hρ : reach node rank = some ρ) :
    Resolved node known rank axes ρ := by
  have hspelled : ∀ raw, spelledAxes node.axes = some raw → node.axes ≠ .omitted →
      (if raw = [] then
        if node.noopWithEmptyAxes.getD 0 ≠ 0 then some ([], true) else known.map fun r => (allAxes r, false)
      else (normalizeAxes addYIfNegative raw known).map fun axes => (axes, false)) = some (axes, false) →
      Resolved node known rank axes ρ := by
    intro raw hraw hne h
    rw [reach, hraw, bind_some] at hρ
    by_cases hnil : raw = []
    · rw [if_pos hnil] at h hρ
      by_cases hnoop : node.noopWithEmptyAxes.getD 0 ≠ 0
      · rw [if_pos hnoop] at h
        cases congrArg Prod.snd (Option.some.inj h)
      · rw [if_neg hnoop] at h
        exact resolved_all hknown h hρ ⟨fun hm => absurd hm.1 hne, fun hn => absurd hn hnoop⟩
    · rw [if_neg hnil] at h hρ
      obtain ⟨as, has, heq⟩ := map_eq_some_iff.mp h
      obtain rfl : as = axes := congrArg Prod.fst heq
      exact resolved_spelled hadd hnil hne hknown has hρ
  cases haxes : node.axes with
  | byAttribute raw =>
    simp only [resolveAxes, haxes] at h
    exact hspelled raw (by rw [haxes, spelledAxes]) (by simp [haxes]) h
  | constant raw =>
    simp only [resolveAxes, haxes] at h
    exact hspelled raw (by rw [haxes, spelledAxes]) (by simp [haxes]) h
  | dynamic =>
    simp only [resolveAxes, haxes] at h
    cases h
  | omitted =>
    simp only [resolveAxes, haxes] at h
    rw [reach, haxes, spelledAxes, bind_some, if_pos rfl] at hρ
    exact resolved_all hknown h hρ ⟨fun hm => hm.2, fun hn => ⟨haxes, hn⟩⟩

variable {ν : String → Nat}

theorem means_unique {d d' : Dimension} {n n' : Nat} (h : sameDim d d' = true) (hd : d.Means ν n)
    (hd' : d'.Means ν n') : n = n' := by
  cases d with
  | unknown => simp [sameDim] at h
  | param s =>
    cases d' with
    | param s' =>
      have hs : s = s' := by simpa [sameDim] using h
      subst hs
      exact Eq.trans hd (Eq.symm hd')
    | unknown => simp [sameDim] at h
    | size e => simp [sameDim] at h
  | size e =>
    cases d' with
    | size e' =>
      have he : e = e' := by simpa [sameDim] using h
      subst he
      exact Int.ofNat.inj (Eq.trans hd (Eq.symm hd'))
    | unknown => simp [sameDim] at h
    | param s' => simp [sameDim] at h

theorem shape_unique {ds ds' : List Dimension} {s s' : List Nat} (h : sameShape ds ds' = true)
    (hs : Conforms ν ds s) (hs' : Conforms ν ds' s') : s = s' := by
  induction ds generalizing ds' s s' with
  | nil =>
    cases ds' with
    | nil =>
      cases hs
      cases hs'
      rfl
    | cons d' ds' => simp [sameShape] at h
  | cons d ds ih =>
    cases ds' with
    | nil => simp [sameShape] at h
    | cons d' ds' =>
      cases hs with
      | cons hd hs =>
        cases hs' with
        | cons hd' hs' =>
          rw [sameShape, Bool.and_eq_true] at h
          rw [means_unique h.1 hd hd', ih h.2 hs hs']

theorem reducedDims_conforms (keep : Bool) {sizes : List Dimension} {dims : List Nat} (h : Conforms ν sizes dims)
    {i : Int} (hsorted : axes.Pairwise (· < ·)) (hrange : ∀ a ∈ axes, i ≤ a) :
    Conforms ν (reducedDims keep i axes sizes) (reducedShape keep dims (maskFrom axes i dims.length)) := by
  induction h generalizing axes i with
  | nil =>
    rw [reducedDims, reducedShape_nil]
    exact List.Forall₂.nil
  | @cons d n sizes dims hd hrest ih =>
    rw [length_cons, maskFrom]
    cases axes with
    | nil =>
      have hsame : ∀ (i : Int) (dims : List Nat), reducedShape keep dims (maskFrom [] i dims.length) = dims := by
        intro i dims
        induction dims generalizing i with
        | nil => simp
        | cons n dims ih => simp [maskFrom, reducedShape, ih (i + 1)]
      simp only [not_mem_nil, decide_false, reducedShape, hsame, reducedDims]
      exact List.Forall₂.cons hd hrest
    | cons a axes =>
      obtain ⟨habove, hsorted'⟩ := pairwise_cons.mp hsorted
      by_cases ha : a = i
      · subst ha
        have htail := ih hsorted' (i := a + 1) fun b hb => by
          have := habove b hb
          omega
        rw [reducedDims, if_pos rfl, maskFrom_above]
        simp only [mem_cons_self, decide_true, reducedShape]
        cases keep with
        | false => exact htail
        | true => exact List.Forall₂.cons rfl htail
      · have hlt := hrange a mem_cons_self
        have hfresh : i ∉ a :: axes := by
          intro hmem
          cases mem_cons.mp hmem with
          | inl heq => exact ha heq.symm
          | inr hin =>
            have := habove i hin
            omega
        have htail := ih hsorted (i := i + 1) fun b hb => by
          have h₁ := hrange b hb
          have hne : b ≠ i := fun heq => hfresh (heq ▸ hb)
          omega
        rw [reducedDims, if_neg ha]
        simp only [hfresh, decide_false, reducedShape]
        exact List.Forall₂.cons hd htail

variable {p : Pair} {x y mid : Tensor} {R : Reduction (Option ℚ)}

theorem eval_cases (h : node.eval x = some y) : ∃ R, operation node.kind = some R ∧
    ((reach node x.shape.length = some .identity ∧ y = x) ∨
      ∃ mask, reach node x.shape.length = some (.along mask) ∧ y = reduce R (keeps node) mask x) := by
  obtain ⟨R, hR, h⟩ := bind_eq_some_iff.mp h
  obtain ⟨ρ, hρ, h⟩ := map_eq_some_iff.mp h
  refine ⟨R, hR, ?_⟩
  cases ρ with
  | identity => exact .inl ⟨hρ, h.symm⟩
  | along mask => exact .inr ⟨mask, hρ, h.symm⟩

theorem exists_reach (h : node.eval x = some y) : ∃ ρ, reach node x.shape.length = some ρ := by
  obtain ⟨R, -, hcases⟩ := eval_cases h
  cases hcases with
  | inl hid => exact ⟨_, hid.1⟩
  | inr hover =>
    obtain ⟨mask, hmask, -⟩ := hover
    exact ⟨_, hmask⟩

theorem eval_over {mask : List Bool} (h : node.eval x = some y) (hR : operation node.kind = some R)
    (hreach : reach node x.shape.length = some (.along mask)) :
    y = reduce R (keeps node) mask x := by
  obtain ⟨R', hR', hcases⟩ := eval_cases h
  obtain rfl := Option.some.inj (hR'.symm.trans hR)
  rw [hreach] at hcases
  cases hcases with
  | inl hid => cases hid.1
  | inr hover =>
    obtain ⟨mask', hmask, hy⟩ := hover
    rw [Reach.along.inj (Option.some.inj hmask)]
    exact hy

theorem eval_run (h : node.eval x = some y) (hR : operation node.kind = some R) : R.run y.data = R.run x.data := by
  obtain ⟨R', hR', hcases⟩ := eval_cases h
  obtain rfl := Option.some.inj (hR'.symm.trans hR)
  cases hcases with
  | inl hid => rw [hid.2]
  | inr hover =>
    obtain ⟨mask, -, rfl⟩ := hover
    exact run_data_reduce R' x

theorem reshape_data {op : ReshapeLike} (h : op.eval x = some y) : y.data = x.data := by
  obtain ⟨shape, hshape, h⟩ := bind_eq_some_iff.mp h
  by_cases hlen : x.data.length = shape.prod
  · rw [dif_pos hlen] at h
    rw [← Option.some.inj h]
  · rw [dif_neg hlen] at h
    cases h

theorem middle_data (h : p.middle x = some mid) : ∃ y, p.a.eval x = some y ∧ mid.data = y.data ∧
    (p.reshape = none → mid = y) := by
  obtain ⟨y, hy, h⟩ := bind_eq_some_iff.mp h
  refine ⟨y, hy, ?_⟩
  cases hreshape : p.reshape with
  | none =>
    simp only [hreshape] at h
    obtain rfl := Option.some.inj h
    exact ⟨rfl, fun _ => rfl⟩
  | some op =>
    simp only [hreshape] at h
    exact ⟨reshape_data h, fun hnone => by cases hnone⟩

theorem effective_spec (h : effectiveKeepdims p aAxes = some keep) :
    keep = seenKeeps p ∧ (p.reshape ≠ none → ∃ xSizes sizes, p.xSizes = some xSizes ∧
      p.reshapeSizes = some sizes ∧ sameShape (reducedDims keep 0 aAxes xSizes) sizes = true) := by
  unfold effectiveKeepdims at h
  cases hreshape : p.reshape with
  | none =>
    simp only [hreshape] at h
    obtain rfl := Option.some.inj h
    refine ⟨?_, fun hne => absurd rfl hne⟩
    simp [seenKeeps, hreshape, keeps]
  | some op =>
    simp only [hreshape] at h
    cases hx : p.xSizes with
    | none => simp [hx] at h
    | some xSizes =>
      cases hsizes : p.reshapeSizes with
      | none => simp [hx, hsizes] at h
      | some sizes =>
        simp only [hx, hsizes] at h
        by_cases hsame : sameShape (reducedDims (!decide (getKeepdims p.a ≠ 0)) 0 aAxes xSizes) sizes
        · rw [if_pos hsame] at h
          obtain rfl := Option.some.inj h
          refine ⟨?_, fun _ => ⟨xSizes, sizes, rfl, rfl, hsame⟩⟩
          simp [seenKeeps, hreshape, keeps]
        · rw [if_neg hsame] at h
          cases h

theorem middle_shape (hdecl : p.Declared ν x) (hmid : p.middle x = some mid)
    (heff : effectiveKeepdims p aAxes = some keep) (hreshape : p.reshape ≠ none) (hsorted : aAxes.Pairwise (· < ·))
    (hrange : ∀ a ∈ aAxes, 0 ≤ a) :
    mid.shape = reducedShape keep x.shape (maskOf aAxes x.shape.length) := by
  obtain ⟨xSizes, sizes, hx, hsizes, hsame⟩ := (effective_spec heff).2 hreshape
  have hreal := reducedDims_conforms keep (hdecl.input xSizes hx) hsorted hrange
  exact (shape_unique hsame hreal (hdecl.reshaped sizes mid hsizes hreshape hmid)).symm

theorem middle_exact (hdecl : p.Declared ν x) (hmid : p.middle x = some mid)
    (heff : effectiveKeepdims p aAxes = some keep) (hsorted : aAxes.Pairwise (· < ·)) (hrange : ∀ a ∈ aAxes, 0 ≤ a)
    (hR : operation p.a.kind = some R)
    (hreach : reach p.a x.shape.length = some (.along (maskOf aAxes x.shape.length))) :
    mid = reduce R keep (maskOf aAxes x.shape.length) x := by
  obtain ⟨y, hy, hdata, hsame⟩ := middle_data hmid
  have hyred := eval_over hy hR hreach
  have hkeep := (effective_spec heff).1
  by_cases hreshape : p.reshape = none
  · rw [hsame hreshape, hyred, hkeep, seenKeeps, hreshape]
    rfl
  · apply Axes.ext
    · exact middle_shape hdecl hmid heff hreshape hsorted hrange
    · have hnot : keep = !keeps p.a := by
        rw [hkeep, seenKeeps, if_pos (isSome_iff_ne_none.mpr hreshape)]
      rw [hdata, hyred, hnot]
      exact reduce_data R (keeps p.a) x

theorem pair_run (h : p.eval x = some y) (hkind : p.a.kind = p.n.kind) (hR : operation p.n.kind = some R) :
    R.run y.data = R.run x.data := by
  obtain ⟨mid, hmid, hy⟩ := bind_eq_some_iff.mp h
  obtain ⟨z, hz, hdata, -⟩ := middle_data hmid
  rw [eval_run hy hR, hdata, eval_run hz (hkind ▸ hR)]

theorem reducedShape_full (keep : Bool) (dims : List Nat) :
    reducedShape keep dims (List.replicate dims.length true) = if keep then List.replicate dims.length 1 else [] := by
  induction dims with
  | nil => simp
  | cons n dims ih =>
    rw [length_cons, replicate_succ, reducedShape, ih]
    cases keep <;> simp [replicate_succ]

theorem full_iff (hrun : R.run y.data = R.run x.data) (keep : Bool) :
    reduce R keep (List.replicate x.shape.length true) x = y ↔
      y.shape = if keep then List.replicate x.shape.length 1 else [] := by
  have hshape : (reduce R keep (List.replicate x.shape.length true) x).shape =
      if keep then List.replicate x.shape.length 1 else [] := reducedShape_full keep x.shape
  constructor
  · intro heq
    rw [← heq]
    exact hshape
  · intro hy
    have hprod : (if keep then List.replicate x.shape.length 1 else []).prod = 1 := by
      cases keep <;> simp
    have hleft := data_of_single R (x := reduce R keep (List.replicate x.shape.length true) x) (by rw [hshape, hprod])
    have hright := data_of_single R (x := y) (by rw [hy, hprod])
    apply ext (hshape.trans hy.symm)
    rw [hleft, hright, run_data_reduce, hrun]

theorem fusedNode_reach (axes : List Int) (rank : Nat) : reach (fusedNode p axes) rank =
    if axes = [] then some (.along (List.replicate rank true))
    else (axes.mapM (axisOf rank)).map fun as => .along (maskOf as rank) := by
  have hspelled : spelledAxes (fusedNode p axes).axes = some axes := by
    unfold fusedNode
    dsimp only
    split <;> split <;> rfl
  rw [reach, hspelled, bind_some]
  rfl

theorem fusedNode_eval (hR : operation p.n.kind = some R) (hrange : ∀ a ∈ axes, 0 ≤ a ∧ a < (x.shape.length : Int))
    (hempty : axes = [] → x.shape.length = 0) :
    (fusedNode p axes).eval x = some (reduce R (keeps p.n) (maskOf axes x.shape.length) x) := by
  have hreach : reach (fusedNode p axes) x.shape.length = some (.along (maskOf axes x.shape.length)) := by
    rw [fusedNode_reach]
    by_cases hnil : axes = []
    · rw [if_pos hnil, hempty hnil]
      rfl
    · rw [if_neg hnil, mapM_axisOf_nonneg hrange, map_some]
  have hop : operation (fusedNode p axes).kind = some R := hR
  rw [ReduceNode.eval, hop, bind_some, hreach]
  rfl

theorem fusedNode_invalid (h : ∃ a ∈ axes, (x.shape.length : Int) ≤ a) : (fusedNode p axes).eval x = none := by
  have hne : axes ≠ [] := by
    obtain ⟨a, ha, -⟩ := h
    exact ne_nil_of_mem ha
  rw [ReduceNode.eval, fusedNode_reach, if_neg hne, mapM_axisOf_outside h, map_none]
  cases operation (fusedNode p axes).kind <;> rfl

theorem fuse_cases {addYIfNegative : Int → Int → Int} (h : fuse addYIfNegative p = .fuses fused) :
    p.a.kind = p.n.kind ∧ ∃ aAxes keep nAxes axes,
      resolveAxes addYIfNegative p.a (p.xSizes.map List.length) = some (aAxes, false) ∧
      effectiveKeepdims p (sortUnique aAxes) = some keep ∧
      resolveAxes addYIfNegative p.n (midRank keep (p.xSizes.map List.length) (sortUnique aAxes)) = some (nAxes, false) ∧
      fusedAxes keep (sortUnique aAxes) (sortUnique nAxes) = some axes ∧ fused = fusedNode p axes := by
  unfold fuse at h
  by_cases hmatch : patternMatchPredicate p
  · rw [if_pos hmatch] at h
    have hkind : p.a.kind = p.n.kind := by
      simp only [patternMatchPredicate, Bool.and_eq_true, beq_iff_eq] at hmatch
      exact hmatch.1.1.2
    refine ⟨hkind, ?_⟩
    unfold runTransform at h
    dsimp only at h
    split at h
    · cases h
    · cases h
    · next aAxes ha =>
      split at h
      · cases h
      · next keep hkeep =>
        split at h
        · cases h
        · cases h
        · next nAxes hn =>
          split at h
          · cases h
          · next axes haxes => exact ⟨aAxes, keep, nAxes, axes, ha, hkeep, hn, haxes, (Outcome.fuses.inj h).symm⟩
  · rw [if_neg hmatch] at h
    cases h

variable {maskA maskB : List Bool}

/-- Both reductions read right: the fused one agrees exactly when no axis that `n` sees is lost or added. -/
theorem fused_iff (R : Reduction (Option ℚ)) (kb : Bool) (hlenA : maskA.length = x.shape.length)
    (hlenB : maskB.length = if keep then x.shape.length else maskA.count false)
    (hmarked : x.shape ≠ [] → true ∈ maskA) :
    reduce R kb (if keep then union maskA maskB else overlay maskA maskB) x =
        reduce R kb maskB (reduce R keep maskA x) ↔
      kb = keep ∨ x.shape = [] ∨ (keep = true ∧ Within maskA maskB) := by
  cases keep with
  | true =>
    have hlen : maskA.length = maskB.length := hlenA.trans hlenB.symm
    cases kb with
    | true =>
      apply iff_of_true _ (.inl rfl)
      exact (reduce_reduce R x (shape_keep_keep hlen x.shape) fun idx _ => keep_keep hlen idx).symm
    | false =>
      constructor
      · intro heq
        have hlens := congrArg (fun z : Tensor => z.shape.length) heq
        have hleft : (reducedShape false x.shape (union maskA maskB)).length = (union maskA maskB).count false :=
          length_drop ((length_union hlen).trans hlenB)
        have hright : (reducedShape false (reducedShape true x.shape maskA) maskB).length = maskB.count false :=
          length_drop (hlenB.trans (length_keep hlenA).symm)
        exact .inr (.inr ⟨rfl, within_of_count hlen (hleft.symm.trans (hlens.trans hright))⟩)
      · intro h
        have hwithin : Within maskA maskB := by
          rcases h with h | h | h
          · cases h
          · have hnil : maskA = [] := length_eq_zero_iff.mp (by rw [hlenA, h, length_nil])
            intro i hi
            simp [hnil] at hi
          · exact h.2
        rw [if_pos rfl, union_of_within hlen hwithin]
        exact (reduce_reduce R x (shape_keep_drop hlen hwithin x.shape) fun idx _ => keep_drop hlen hwithin idx).symm
  | false =>
    cases kb with
    | false =>
      apply iff_of_true _ (.inl rfl)
      exact (reduce_reduce R x (shape_drop_drop maskA maskB x.shape) fun idx _ => drop_drop maskA maskB idx).symm
    | true =>
      have hoverlay : (overlay maskA maskB).length = x.shape.length := (length_overlay hlenB).trans hlenA
      constructor
      · intro heq
        have hlens := congrArg (fun z : Tensor => z.shape.length) heq
        have hleft : (reducedShape true x.shape (overlay maskA maskB)).length = x.shape.length := length_keep hoverlay
        have hmid : (reducedShape false x.shape maskA).length = maskA.count false := length_drop hlenA
        have hright : (reducedShape true (reducedShape false x.shape maskA) maskB).length = maskA.count false :=
          (length_keep (hlenB.trans hmid.symm)).trans hmid
        have hcount : x.shape.length = maskA.count false := hleft.symm.trans (hlens.trans hright)
        by_cases hnil : x.shape = []
        · exact .inr (.inl hnil)
        · have hmiss : ∀ b ∈ maskA, false = b := count_eq_length.mp (hcount.symm.trans hlenA.symm)
          cases hmiss true (hmarked hnil)
      · intro h
        have hnil : x.shape = [] := by
          rcases h with h | h | h
          · cases h
          · exact h
          · cases h.1
        have hA : maskA = [] := length_eq_zero_iff.mp (by rw [hlenA, hnil, length_nil])
        have hB : maskB = [] := length_eq_zero_iff.mp (by rw [hlenB, hA]; rfl)
        subst hA
        subst hB
        exact (reduce_reduce R x (by simp [overlay]) fun idx _ => by simp [overlay]).symm

theorem union_full_left (n : Nat) (mask : List Bool) (hlen : mask.length = n) :
    union (List.replicate n true) mask = List.replicate n true := by
  induction n generalizing mask with
  | zero =>
    rw [length_eq_zero_iff.mp hlen]
    rfl
  | succ n ih =>
    cases mask with
    | nil => simp at hlen
    | cons b mask => rw [replicate_succ, union, ih mask (Nat.succ.inj hlen), Bool.true_or]

theorem union_full_right (n : Nat) (mask : List Bool) (hlen : mask.length = n) :
    union mask (List.replicate n true) = List.replicate n true := by
  induction n generalizing mask with
  | zero =>
    rw [length_eq_zero_iff.mp hlen]
    rfl
  | succ n ih =>
    cases mask with
    | nil => simp at hlen
    | cons b mask => rw [replicate_succ, union, ih mask (Nat.succ.inj hlen), Bool.or_true]

theorem overlay_full_left (n : Nat) : overlay (List.replicate n true) [] = List.replicate n true := by
  induction n with
  | zero => rfl
  | succ n ih => rw [replicate_succ, overlay, ih]

theorem overlay_full_right (mask : List Bool) :
    overlay mask (List.replicate (mask.count false) true) = List.replicate mask.length true := by
  induction mask with
  | nil => rfl
  | cons b mask ih =>
    cases b with
    | true =>
      rw [count_cons_of_ne (by simp), overlay, ih]
      rfl
    | false =>
      rw [count_cons_self, replicate_succ, overlay, ih]
      rfl

variable {nAxes : List Int}

theorem fusedAxes_spec (h : fusedAxes keep aAxes nAxes = some axes) (hsorted : aAxes.Pairwise (· < ·))
    (hrange : ∀ a ∈ aAxes, 0 ≤ a ∧ a < (rank : Int))
    (hn : ∀ a ∈ nAxes, 0 ≤ a ∧ a < ((if keep then rank else rank - aAxes.length : Nat) : Int)) :
    maskOf axes rank = (if keep then union (maskOf aAxes rank) (maskOf nAxes rank)
      else overlay (maskOf aAxes rank) (maskOf nAxes (rank - aAxes.length))) ∧
    (∀ a ∈ axes, 0 ≤ a ∧ a < (rank : Int)) ∧ (axes = [] → aAxes = []) := by
  obtain ⟨mapped, hmapped, rfl⟩ := map_eq_some_iff.mp h
  have hempty : sortUnique (aAxes ++ mapped) = [] → aAxes = [] := by
    intro hnil
    apply eq_nil_iff_forall_not_mem.mpr
    intro a ha
    have hmem : a ∈ sortUnique (aAxes ++ mapped) := mem_sortUnique.mpr (mem_append_left _ ha)
    rw [hnil] at hmem
    cases hmem
  have hin : (∀ b ∈ mapped, 0 ≤ b ∧ b < (rank : Int)) →
      ∀ a ∈ sortUnique (aAxes ++ mapped), 0 ≤ a ∧ a < (rank : Int) := by
    intro hmap a ha
    cases mem_append.mp (mem_sortUnique.mp ha) with
    | inl hleft => exact hrange a hleft
    | inr hright => exact hmap a hright
  cases keep with
  | true =>
    obtain rfl : nAxes = mapped := Option.some.inj hmapped
    exact ⟨maskOf_append aAxes nAxes rank, hin hn, hempty⟩
  | false =>
    refine ⟨maskOf_mapped hsorted hrange hmapped, hin ?_, hempty⟩
    exact mapped_range hsorted hrange hmapped fun a ha => (hn a ha).2

/-- The rank that the pass takes `n` to see is the real one, but for a first node that is misread and keeps no axes. -/
theorem middle_length (hdecl : p.Declared ν x) (hmid : p.middle x = some mid)
    (heff : effectiveKeepdims p (sortUnique aAxes) = some keep) (hres : Resolved p.a known x.shape.length aAxes ρ)
    (hρ : reach p.a x.shape.length = some ρ) (hskew : ¬(Misread p.a ∧ p.reshape = none ∧ keeps p.a = false)) :
    mid.shape.length = if keep then x.shape.length else x.shape.length - (sortUnique aAxes).length := by
  have hsorted := sorted_sortUnique aAxes
  have hrange : ∀ a ∈ sortUnique aAxes, 0 ≤ a ∧ a < (x.shape.length : Int) :=
    fun a ha => hres.range a (mem_sortUnique.mp ha)
  have hcount : (maskOf (sortUnique aAxes) x.shape.length).count false + (sortUnique aAxes).length = x.shape.length :=
    count_maskFrom hsorted fun a ha => by simpa using hrange a ha
  have hlens : (reducedShape keep x.shape (maskOf (sortUnique aAxes) x.shape.length)).length =
      if keep then x.shape.length else x.shape.length - (sortUnique aAxes).length := by
    cases keep with
    | true => exact length_keep (length_maskOf _ _)
    | false =>
      rw [length_drop (length_maskOf _ _)]
      simp only [Bool.false_eq_true, if_false]
      omega
  by_cases hreshape : p.reshape = none
  · by_cases hm : Misread p.a
    · obtain ⟨y, hy, -, hsame⟩ := middle_data hmid
      obtain ⟨R, -, hcases⟩ := eval_cases hy
      have hkeep : keep = true := by
        rw [(effective_spec heff).1, seenKeeps, hreshape]
        by_contra hfalse
        exact hskew ⟨hm, hreshape, by simpa using hfalse⟩
      have hyx : y = x := by
        cases hcases with
        | inl hid => exact hid.2
        | inr hover =>
          obtain ⟨mask, hmask, -⟩ := hover
          rw [hρ, (hres.misread hm).2.2] at hmask
          cases hmask
      rw [hsame hreshape, hyx, hkeep, if_pos rfl]
    · obtain ⟨y, hy, -, -⟩ := middle_data hmid
      obtain ⟨R, hR, -⟩ := eval_cases hy
      rw [hres.exact hm, ← maskOf_sortUnique aAxes] at hρ
      rw [middle_exact hdecl hmid heff hsorted (fun a ha => (hrange a ha).1) hR hρ]
      exact hlens
  · rw [middle_shape hdecl hmid heff hreshape hsorted fun a ha => (hrange a ha).1]
    exact hlens

theorem full_fused_iff (hR : operation p.n.kind = some R) (hrun : R.run y.data = R.run x.data)
    (hmask : maskOf axes x.shape.length = List.replicate x.shape.length true)
    (hrange : ∀ a ∈ axes, 0 ≤ a ∧ a < (x.shape.length : Int)) (hempty : axes = [] → x.shape.length = 0) :
    (fusedNode p axes).eval x = some y ↔
      y.shape = if keeps p.n then List.replicate x.shape.length 1 else [] := by
  rw [fusedNode_eval hR hrange hempty, hmask, some_inj]
  exact full_iff hrun (keeps p.n)

theorem mapM_eq_nil {f : Int → Option Int} (h : as.mapM f = some []) : as = [] := by
  cases as with
  | nil => rfl
  | cons a as => simp [mapM_cons, bind_eq_some_iff] at h

theorem skewed_iff (hres : Resolved p.a known x.shape.length aAxes ρ) (hmis : Misread p.a)
    (hreshape : p.reshape = none) (hka : keeps p.a = false) (hR : operation p.n.kind = some R)
    (hrun : R.run y.data = R.run x.data)
    (hn : resolveAxes addYIfNegative p.n (midRank false known (sortUnique aAxes)) = some (nAxes, false))
    (haxes : fusedAxes false (sortUnique aAxes) (sortUnique nAxes) = some axes) :
    (fusedNode p axes).eval x = some y ↔ FusesWell p x.shape y.shape := by
  obtain ⟨hknown, rfl, -⟩ := hres.misread hmis
  have hsorted := sorted_sortUnique (allAxes x.shape.length)
  have hall : ∀ a, a ∈ sortUnique (allAxes x.shape.length) ↔ 0 ≤ a ∧ a < (x.shape.length : Int) :=
    fun a => mem_sortUnique.trans mem_allAxes
  have hfull : maskOf (sortUnique (allAxes x.shape.length)) x.shape.length = List.replicate x.shape.length true := by
    rw [maskOf_sortUnique, maskOf_allAxes]
  have hcount : (maskOf (sortUnique (allAxes x.shape.length)) x.shape.length).count false +
      (sortUnique (allAxes x.shape.length)).length = x.shape.length :=
    count_maskFrom hsorted fun a ha => by simpa using (hall a).mp ha
  have hlen : (sortUnique (allAxes x.shape.length)).length = x.shape.length := by
    rw [hfull, count_replicate] at hcount
    simpa using hcount
  have hzero : midRank false known (sortUnique (allAxes x.shape.length)) = some 0 := by
    rw [hknown, midRank, map_some, hlen]
    simp
  rw [hzero] at hn
  rw [FusesWell, if_pos (.inl hmis)]
  by_cases hspelled : spelledAxes p.n.axes = some []
  · have hnil : nAxes = [] := by
      have hnone : ∀ raw, spelledAxes p.n.axes = some raw → raw = [] := fun raw hraw =>
        (Option.some.inj (hspelled.symm.trans hraw)).symm
      unfold resolveAxes at hn
      cases hop : p.n.axes with
      | dynamic => simp [hop] at hn
      | omitted =>
        simp only [hop] at hn
        exact (congrArg Prod.fst (Option.some.inj hn)).symm
      | byAttribute raw =>
        obtain rfl := hnone raw (by rw [hop, spelledAxes])
        by_cases hnoop : p.n.noopWithEmptyAxes.getD 0 ≠ 0
        · simp [hop, hnoop] at hn
        · simp only [hop, if_true, if_neg hnoop] at hn
          exact (congrArg Prod.fst (Option.some.inj hn)).symm
      | constant raw =>
        obtain rfl := hnone raw (by rw [hop, spelledAxes])
        by_cases hnoop : p.n.noopWithEmptyAxes.getD 0 ≠ 0
        · simp [hop, hnoop] at hn
        · simp only [hop, if_true, if_neg hnoop] at hn
          exact (congrArg Prod.fst (Option.some.inj hn)).symm
    subst hnil
    obtain ⟨hmask, hrange, hempty⟩ := fusedAxes_spec haxes hsorted (fun a ha => (hall a).mp ha)
      (fun a ha => absurd (mem_sortUnique.mp ha) (by simp))
    have hover : maskOf (sortUnique []) (x.shape.length - (sortUnique (allAxes x.shape.length)).length) = [] := by
      rw [hlen, Nat.sub_self]
      rfl
    rw [hfull, hover, overlay_full_left] at hmask
    rw [full_fused_iff hR hrun (by simpa using hmask) hrange fun hnil => by rw [← hlen, hempty hnil, length_nil]]
    exact (and_iff_left fun h => h.2.2.2 hspelled).symm
  · have hne : nAxes ≠ [] := by
      intro hnil
      unfold resolveAxes at hn
      cases hop : p.n.axes with
      | dynamic => simp [hop] at hn
      | omitted => exact hspelled (by rw [hop, spelledAxes])
      | byAttribute raw =>
        have hraw : raw ≠ [] := fun h => hspelled (by rw [hop, spelledAxes, h])
        simp only [hop, if_neg hraw, normalizeAxes, map_some, Option.some.injEq, Prod.mk.injEq] at hn
        exact hraw (map_eq_nil_iff.mp (hn.1.trans hnil))
      | constant raw =>
        have hraw : raw ≠ [] := fun h => hspelled (by rw [hop, spelledAxes, h])
        simp only [hop, if_neg hraw, normalizeAxes, map_some, Option.some.injEq, Prod.mk.injEq] at hn
        exact hraw (map_eq_nil_iff.mp (hn.1.trans hnil))
    obtain ⟨mapped, hmapped, rfl⟩ := map_eq_some_iff.mp haxes
    have hout := mapped_outside hmapped hsorted hall
    have hsome : mapped ≠ [] := by
      intro hnil
      obtain ⟨a, ha⟩ := exists_mem_of_ne_nil nAxes hne
      have hmem : a ∈ sortUnique nAxes := mem_sortUnique.mpr ha
      rw [hnil] at hmapped
      rw [mapM_eq_nil hmapped] at hmem
      cases hmem
    obtain ⟨b, hb⟩ := exists_mem_of_ne_nil mapped hsome
    have hinvalid := fusedNode_invalid (p := p) (x := x)
      ⟨b, mem_sortUnique.mpr (mem_append_right (sortUnique (allAxes x.shape.length)) hb), hout b hb⟩
    rw [hinvalid]
    refine iff_of_false nofun ?_
    intro h
    exact absurd ⟨hmis, hreshape, hka, hspelled⟩ h.2

theorem full_mask {mid : Nat} (hmid : mid = if keep then rank else rank - (sortUnique aAxes).length)
    (hrange : ∀ a ∈ sortUnique aAxes, 0 ≤ a ∧ a < (rank : Int)) (hmis : aAxes = allAxes rank ∨ nAxes = allAxes mid) :
    (if keep then union (maskOf (sortUnique aAxes) rank) (maskOf (sortUnique nAxes) rank)
      else overlay (maskOf (sortUnique aAxes) rank) (maskOf (sortUnique nAxes) (rank - (sortUnique aAxes).length))) =
      List.replicate rank true := by
  have hcount : (maskOf (sortUnique aAxes) rank).count false + (sortUnique aAxes).length = rank :=
    count_maskFrom (sorted_sortUnique aAxes) fun a ha => by simpa using hrange a ha
  rcases hmis with h | h
  · have hall : maskOf (sortUnique aAxes) rank = List.replicate rank true := by
      rw [h, maskOf_sortUnique, maskOf_allAxes]
    rw [hall] at hcount ⊢
    cases keep with
    | true => exact union_full_left _ _ (length_maskOf _ _)
    | false =>
      have hzero : rank - (sortUnique aAxes).length = 0 := by
        rw [count_replicate] at hcount
        simp at hcount
        omega
      rw [hzero]
      exact overlay_full_left _
  · rw [h, hmid]
    cases keep with
    | true =>
      simp only [if_true, maskOf_sortUnique, maskOf_allAxes]
      exact union_full_right _ _ (length_maskOf _ _)
    | false =>
      have hleft : rank - (sortUnique aAxes).length = (maskOf (sortUnique aAxes) rank).count false := by omega
      simp only [Bool.false_eq_true, if_false]
      rw [maskOf_sortUnique (allAxes _), maskOf_allAxes, hleft, overlay_full_right, length_maskOf]

theorem reducedTwice_iff {mid : Nat} (hmid : mid = if keep then rank else rank - aAxes.length)
    (hA : reach p.a rank = some (.along (maskOf aAxes rank))) (hN : reach p.n mid = some (.along (maskOf nAxes mid))) :
    (keep = true ∧ Within (maskOf aAxes rank) (maskOf nAxes mid)) ↔ (keep = true ∧ ReducedTwice p rank) := by
  apply and_congr_right
  intro htrue
  rw [if_pos htrue] at hmid
  subst hmid
  constructor
  · exact fun hwithin => ⟨_, _, hA, hN, hwithin⟩
  · rintro ⟨maskA, maskB, hA', hN', hwithin⟩
    obtain rfl := Reach.along.inj (Option.some.inj (hA'.symm.trans hA))
    obtain rfl := Reach.along.inj (Option.some.inj (hN'.symm.trans hN))
    exact hwithin

theorem Resolved.nil_of_sorted (h : Resolved node known rank axes ρ) (hnil : sortUnique axes = []) : rank = 0 := by
  apply h.empty
  apply eq_nil_iff_forall_not_mem.mpr
  intro a ha
  have hmem := mem_sortUnique.mpr ha
  rw [hnil] at hmem
  cases hmem

theorem fuse_iff (hadd : ∀ a r, addYIfNegative a r = if a < 0 then a + r else a)
    (hfuse : fuse addYIfNegative p = .fuses fused) (hdecl : p.Declared ν x) (hy : p.eval x = some y) :
    fused.eval x = some y ↔ FusesWell p x.shape y.shape := by
  obtain ⟨hkind, aAxes, keep, nAxes, axes, ha, heff, hn, haxes, rfl⟩ := fuse_cases hfuse
  obtain ⟨mid, hmid, hny⟩ := bind_eq_some_iff.mp hy
  obtain ⟨z, hz, -, -⟩ := middle_data hmid
  obtain ⟨R, hRa, -⟩ := eval_cases hz
  have hR : operation p.n.kind = some R := hkind ▸ hRa
  have hrun := pair_run hy hkind hR
  obtain ⟨ρA, hρA⟩ := exists_reach hz
  have hknown : p.xSizes.map List.length = none ∨ p.xSizes.map List.length = some x.shape.length := by
    cases hx : p.xSizes with
    | none => exact .inl rfl
    | some sizes => exact .inr (congrArg some (hdecl.input sizes hx).length_eq)
  have hresA := resolveAxes_resolved hadd hknown ha hρA
  have hsorted := sorted_sortUnique aAxes
  have hrangeA : ∀ a ∈ sortUnique aAxes, 0 ≤ a ∧ a < (x.shape.length : Int) :=
    fun a ha => hresA.range a (mem_sortUnique.mp ha)
  have hkeep := (effective_spec heff).1
  by_cases hskew : Misread p.a ∧ p.reshape = none ∧ keeps p.a = false
  · have hfalse : keep = false := by
      rw [hkeep, seenKeeps, hskew.2.1]
      exact hskew.2.2
    subst hfalse
    exact skewed_iff hresA hskew.1 hskew.2.1 hskew.2.2 hR hrun hn haxes
  · have hlen := middle_length hdecl hmid heff hresA hρA hskew
    obtain ⟨ρN, hρN⟩ := exists_reach hny
    have hknownN : midRank keep (p.xSizes.map List.length) (sortUnique aAxes) = none ∨
        midRank keep (p.xSizes.map List.length) (sortUnique aAxes) = some mid.shape.length := by
      rw [hlen]
      rcases hknown with h | h
      · exact .inl (by rw [h]; rfl)
      · exact .inr (by rw [h]; rfl)
    have hresN := resolveAxes_resolved hadd hknownN hn hρN
    obtain ⟨hmask, hrange, hempty⟩ := fusedAxes_spec haxes hsorted hrangeA fun a ha => by
      rw [← hlen]
      exact hresN.range a (mem_sortUnique.mp ha)
    have hnoaxes := fun hnil => hresA.nil_of_sorted (hempty hnil)
    by_cases hmis : Misread p.a ∨ Misread p.n
    · have hfull := full_mask hlen hrangeA (hmis.imp (fun h => (hresA.misread h).2.1) fun h => (hresN.misread h).2.1)
      rw [full_fused_iff hR hrun (hmask.trans hfull) hrange hnoaxes, FusesWell, if_pos hmis]
      exact (and_iff_left fun h => hskew ⟨h.1, h.2.1, h.2.2.1⟩).symm
    · obtain ⟨hmisA, hmisN⟩ := not_or.mp hmis
      have hreachA : reach p.a x.shape.length = some (.along (maskOf (sortUnique aAxes) x.shape.length)) := by
        rw [hρA, hresA.exact hmisA, maskOf_sortUnique]
      have hreachN : reach p.n mid.shape.length = some (.along (maskOf (sortUnique nAxes) mid.shape.length)) := by
        rw [hρN, hresN.exact hmisN, maskOf_sortUnique]
      have hmidred := middle_exact hdecl hmid heff hsorted (fun a ha => (hrangeA a ha).1) hRa hreachA
      have hyred := (eval_over hny hR hreachN).trans
        (congrArg (reduce R (keeps p.n) (maskOf (sortUnique nAxes) mid.shape.length)) hmidred)
      have hmarked : x.shape ≠ [] → true ∈ maskOf (sortUnique aAxes) x.shape.length := by
        intro hne
        obtain ⟨a, ha⟩ := exists_mem_of_ne_nil (sortUnique aAxes) fun hnil =>
          hne (length_eq_zero_iff.mp (hresA.nil_of_sorted hnil))
        exact mem_maskOf hrangeA ha
      have hcount : (maskOf (sortUnique aAxes) x.shape.length).count false + (sortUnique aAxes).length = x.shape.length :=
        count_maskFrom hsorted fun a ha => by simpa using hrangeA a ha
      have hlenB : (maskOf (sortUnique nAxes) mid.shape.length).length =
          if keep then x.shape.length else (maskOf (sortUnique aAxes) x.shape.length).count false := by
        rw [length_maskOf, hlen]
        cases keep with
        | true => rfl
        | false =>
          simp only [Bool.false_eq_true, if_false]
          omega
      have hiff := fused_iff R (keeps p.n) (length_maskOf (sortUnique aAxes) x.shape.length) hlenB hmarked
      have hsameMask : maskOf axes x.shape.length =
          if keep then union (maskOf (sortUnique aAxes) x.shape.length) (maskOf (sortUnique nAxes) mid.shape.length)
          else overlay (maskOf (sortUnique aAxes) x.shape.length) (maskOf (sortUnique nAxes) mid.shape.length) := by
        rw [hmask, hlen]
        cases keep <;> rfl
      rw [fusedNode_eval hR hrange hnoaxes, some_inj, hsameMask, FusesWell, if_neg hmis, hyred, hiff,
        reducedTwice_iff hlen hreachA hreachN, hkeep]

end Onnxsim.Reduce.Exactness
