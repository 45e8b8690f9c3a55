import Onnxsim.Reduce.Fusion

namespace Onnxsim.Reduce.Mapping

open List Option Axes Fusion

variable {axes : List Int} {i : Int} {rank : Nat}

@[simp]
theorem length_maskFrom (axes : List Int) (i : Int) (rank : Nat) : (maskFrom axes i rank).length = rank := by
  induction rank generalizing i with
  | zero => rfl
  | succ rank ih => rw [maskFrom, length_cons, ih]

@[simp]
theorem length_maskOf (axes : List Int) (rank : Nat) : (maskOf axes rank).length = rank := length_maskFrom axes 0 rank

theorem getElem?_maskFrom (k : Nat) :
    (maskFrom axes i rank)[k]? = some true ↔ k < rank ∧ i + k ∈ axes := by
  induction rank generalizing i k with
  | zero => simp [maskFrom]
  | succ rank ih =>
    cases k with
    | zero => simp [maskFrom]
    | succ k =>
      have hshift : i + 1 + (k : Int) = i + ((k + 1 : Nat) : Int) := by omega
      rw [maskFrom, getElem?_cons_succ, ih k, hshift]
      exact and_congr_left fun _ => Nat.succ_lt_succ_iff.symm

theorem mem_maskOf {a : Int} (hrange : ∀ b ∈ axes, 0 ≤ b ∧ b < (rank : Int)) (ha : a ∈ axes) :
    true ∈ maskOf axes rank := by
  obtain ⟨hpos, hlt⟩ := hrange a ha
  have hget : (maskOf axes rank)[a.toNat]? = some true := by
    apply (getElem?_maskFrom a.toNat).mpr
    refine ⟨by omega, ?_⟩
    rw [zero_add, Int.toNat_of_nonneg hpos]
    exact ha
  exact mem_of_getElem? hget

theorem maskFrom_congr {axes' : List Int} (h : ∀ a, i ≤ a → (a ∈ axes ↔ a ∈ axes')) :
    maskFrom axes i rank = maskFrom axes' i rank := by
  induction rank generalizing i with
  | zero => rfl
  | succ rank ih =>
    rw [maskFrom, maskFrom, ih fun a ha => h a (by omega), decide_eq_decide.mpr (h i (le_refl i))]

theorem maskFrom_above : maskFrom (i :: axes) (i + 1) rank = maskFrom axes (i + 1) rank := by
  apply maskFrom_congr
  intro b hb
  have hne : b ≠ i := by omega
  simp [hne]

theorem maskOf_allAxes (rank : Nat) : maskOf (allAxes rank) rank = List.replicate rank true := by
  apply eq_replicate_iff.mpr
  refine ⟨length_maskOf _ _, ?_⟩
  intro b hb
  obtain ⟨k, hk, rfl⟩ := getElem_of_mem hb
  have hlt : k < rank := by simpa using hk
  have hmem : (maskOf (allAxes rank) rank)[k]? = some true := by
    apply (getElem?_maskFrom k).mpr
    refine ⟨hlt, ?_⟩
    simp [allAxes, hlt]
  rw [getElem?_eq_getElem hk] at hmem
  exact Option.some.inj hmem

theorem ext_marks {m m' : List Bool} (hlen : m.length = m'.length)
    (h : ∀ k : Nat, m[k]? = some true ↔ m'[k]? = some true) : m = m' := by
  apply ext_getElem hlen
  intro k hk hk'
  have hiff := h k
  rw [getElem?_eq_getElem hk, getElem?_eq_getElem hk'] at hiff
  exact Bool.eq_iff_iff.mpr (by simpa using hiff)

theorem mem_sortUnique {a : Int} : a ∈ sortUnique axes ↔ a ∈ axes := by
  rw [sortUnique, mem_insertionSort, mem_dedup]

theorem sorted_sortUnique (axes : List Int) : (sortUnique axes).Pairwise (· < ·) := by
  have hsorted : (sortUnique axes).Pairwise (· ≤ ·) := pairwise_insertionSort _ _
  have hnodup : (sortUnique axes).Nodup := (perm_insertionSort _ _).nodup_iff.mpr (nodup_dedup axes)
  exact (hsorted.and hnodup).imp fun h => lt_of_le_of_ne h.1 h.2

theorem maskOf_sortUnique (axes : List Int) (rank : Nat) : maskOf (sortUnique axes) rank = maskOf axes rank :=
  maskFrom_congr fun _ _ => mem_sortUnique

theorem maskOf_append (axes axes' : List Int) (rank : Nat) :
    maskOf (sortUnique (axes ++ axes')) rank = union (maskOf axes rank) (maskOf axes' rank) := by
  have hfrom : ∀ i, maskFrom (axes ++ axes') i rank = union (maskFrom axes i rank) (maskFrom axes' i rank) := by
    induction rank with
    | zero => exact fun i => rfl
    | succ rank ih =>
      intro i
      simp [maskFrom, union, ih (i + 1)]
  rw [maskOf_sortUnique]
  exact hfrom 0

theorem count_maskFrom (hsorted : axes.Pairwise (· < ·)) (hrange : ∀ a ∈ axes, i ≤ a ∧ a < i + rank) :
    (maskFrom axes i rank).count false + axes.length = rank := by
  induction rank generalizing i axes with
  | zero =>
    cases axes with
    | nil => rfl
    | cons a axes =>
      have := hrange a mem_cons_self
      omega
  | succ rank ih =>
    rw [maskFrom]
    cases axes with
    | nil =>
      have hrest := ih (i := i + 1) List.Pairwise.nil (by simp)
      simp only [not_mem_nil, decide_false, count_cons_self, length_nil] at hrest ⊢
      omega
    | cons a axes =>
      obtain ⟨habove, hsorted'⟩ := pairwise_cons.mp hsorted
      by_cases ha : a = i
      · subst ha
        have hrest := ih (i := a + 1) hsorted' (by
          intro b hb
          have h₁ := habove b hb
          have h₂ := hrange b (mem_cons_of_mem a hb)
          omega)
        rw [maskFrom_above]
        simp only [mem_cons_self, decide_true, length_cons]
        rw [count_cons_of_ne (by simp)]
        omega
      · have hfresh : i ∉ a :: axes := by
          intro hmem
          cases mem_cons.mp hmem with
          | inl h => exact ha h.symm
          | inr h =>
            have h₁ := habove i h
            have h₂ := hrange a mem_cons_self
            omega
        have hrest := ih (i := i + 1) hsorted (by
          intro b hb
          have h₁ := hrange b hb
          have hne : b ≠ i := fun h => hfresh (h ▸ hb)
          omega)
        simp only [hfresh, decide_false, count_cons_self]
        omega

/-- The place of the unmarked entry that `s` unmarked ones precede. -/
def nthKept : List Bool → Nat → Option Nat
  | [], _ => none
  | true :: mask, s => (nthKept mask s).map (· + 1)
  | false :: _, 0 => some 0
  | false :: mask, s + 1 => (nthKept mask s).map (· + 1)

variable {mask maskA maskB : List Bool} {s : Nat} {orig : Int}

theorem nthKept_lt {k : Nat} (h : nthKept mask s = some k) : k < mask.length := by
  fun_induction nthKept mask s generalizing k with
  | case1 s => cases h
  | case2 mask s ih =>
    obtain ⟨j, hj, rfl⟩ := map_eq_some_iff.mp h
    exact Nat.succ_lt_succ (ih hj)
  | case3 mask =>
    obtain rfl := Option.some.inj h
    exact Nat.succ_pos _
  | case4 mask s ih =>
    obtain ⟨j, hj, rfl⟩ := map_eq_some_iff.mp h
    exact Nat.succ_lt_succ (ih hj)

theorem nthKept_isSome (h : s < mask.count false) : (nthKept mask s).isSome := by
  fun_induction nthKept mask s with
  | case1 s => simp at h
  | case2 mask s ih =>
    rw [count_cons_of_ne (by simp)] at h
    simpa using ih h
  | case3 mask => rfl
  | case4 mask s ih =>
    rw [count_cons_self] at h
    simpa using ih (by omega)

theorem nthKept_eq_none (h : mask.count false ≤ s) : nthKept mask s = none := by
  fun_induction nthKept mask s with
  | case1 s => rfl
  | case2 mask s ih =>
    rw [count_cons_of_ne (by simp)] at h
    rw [ih h, map_none]
  | case3 mask =>
    rw [count_cons_self] at h
    omega
  | case4 mask s ih =>
    rw [count_cons_self] at h
    rw [ih (by omega), map_none]

variable {removed : List Int}

theorem skip_head (s : Nat) : mapThrough s (orig :: removed) orig = mapThrough s removed (orig + 1) := by
  have hskip : skipRemoved (orig :: removed) orig = skipRemoved removed (orig + 1) := by
    rw [skipRemoved, if_pos rfl]
  cases s with
  | zero => rw [mapThrough, mapThrough, hskip]
  | succ s => rw [mapThrough, mapThrough, hskip]

theorem skip_none (h : ∀ a ∈ removed, orig < a) : skipRemoved removed orig = (removed, orig) := by
  cases removed with
  | nil => rfl
  | cons a removed =>
    have := h a mem_cons_self
    rw [skipRemoved, if_neg (by omega)]

theorem mapThrough_spec (rank s : Nat) (hsorted : removed.Pairwise (· < ·)) (hrange : ∀ a ∈ removed, orig ≤ a) :
    (∀ k, nthKept (maskFrom removed orig rank) s = some k → mapThrough s removed orig = orig + k) ∧
      (nthKept (maskFrom removed orig rank) s = none → orig + rank ≤ mapThrough s removed orig) := by
  induction rank generalizing removed orig s with
  | zero =>
    refine ⟨fun k hk => by simp [maskFrom, nthKept] at hk, fun _ => ?_⟩
    have hskip : ∀ (removed : List Int) orig, orig ≤ (skipRemoved removed orig).2 := by
      intro removed
      induction removed with
      | nil => exact fun orig => le_refl orig
      | cons a removed ih =>
        intro orig
        rw [skipRemoved]
        split
        · have := ih (orig + 1)
          omega
        · exact le_refl orig
    have hle : ∀ (s : Nat) (removed : List Int) orig, orig ≤ mapThrough s removed orig := by
      intro s
      induction s with
      | zero => exact hskip
      | succ s ih =>
        intro removed orig
        have h₁ := hskip removed orig
        have h₂ := ih (skipRemoved removed orig).1 ((skipRemoved removed orig).2 + 1)
        rw [mapThrough]
        omega
    simpa using hle s removed orig
  | succ rank ih =>
    have hhead : (∃ rest, removed = orig :: rest) ∨ ∀ a ∈ removed, orig < a := by
      cases removed with
      | nil => exact .inr (by simp)
      | cons a removed =>
        have ha := hrange a mem_cons_self
        by_cases heq : a = orig
        · exact .inl ⟨removed, by rw [heq]⟩
        · refine .inr fun b hb => ?_
          cases mem_cons.mp hb with
          | inl h => omega
          | inr h =>
            have := (pairwise_cons.mp hsorted).1 b h
            omega
    rw [maskFrom]
    cases hhead with
    | inl h =>
      obtain ⟨rest, rfl⟩ := h
      obtain ⟨habove, hsorted'⟩ := pairwise_cons.mp hsorted
      have hrange' : ∀ a ∈ rest, orig + 1 ≤ a := fun a ha => by
        have := habove a ha
        omega
      have hrest := ih s hsorted' hrange'
      rw [skip_head, maskFrom_above]
      simp only [mem_cons_self, decide_true, nthKept]
      constructor
      · intro k hk
        obtain ⟨j, hj, rfl⟩ := map_eq_some_iff.mp hk
        have := hrest.1 j hj
        omega
      · intro hnone
        have := hrest.2 (map_eq_none_iff.mp hnone)
        omega
    | inr h =>
      have hfresh : orig ∉ removed := fun hmem => absurd (h orig hmem) (lt_irrefl orig)
      have hskip := skip_none h
      simp only [hfresh, decide_false]
      cases s with
      | zero =>
        rw [mapThrough, hskip]
        simp [nthKept]
      | succ s =>
        have habove : ∀ a ∈ removed, orig + 1 ≤ a := fun a ha => by
          have := h a ha
          omega
        have hrest := ih s hsorted habove
        rw [mapThrough, hskip]
        simp only [nthKept]
        constructor
        · intro k hk
          obtain ⟨j, hj, rfl⟩ := map_eq_some_iff.mp hk
          have := hrest.1 j hj
          omega
        · intro hnone
          have := hrest.2 (map_eq_none_iff.mp hnone)
          omega

/-- An overlay marks what the first mask marks and the places of the kept positions that the second one marks. -/
theorem getElem?_overlay (hlen : maskB.length = maskA.count false) (k : Nat) :
    (overlay maskA maskB)[k]? = some true ↔
      maskA[k]? = some true ∨ ∃ s : Nat, maskB[s]? = some true ∧ nthKept maskA s = some k := by
  induction maskA generalizing maskB k with
  | nil =>
    have hnil : maskB = [] := length_eq_zero_iff.mp hlen
    simp [hnil, overlay]
  | cons a maskA ih =>
    cases a with
    | true =>
      rw [count_cons_of_ne (by simp)] at hlen
      cases k with
      | zero => simp [overlay]
      | succ k =>
        have hrest := ih hlen k
        simp [overlay, nthKept, hrest]
    | false =>
      rw [count_cons_self] at hlen
      cases maskB with
      | nil => simp at hlen
      | cons b maskB =>
        have hrest := fun k => ih (Nat.succ.inj hlen) k
        cases k with
        | zero =>
          have hnone : ∀ s, nthKept (false :: maskA) s = some 0 ↔ s = 0 := by
            intro s
            cases s with
            | zero => simp [nthKept]
            | succ s => simp [nthKept]
          simp [overlay, hnone]
        | succ k =>
          have hsucc : ∀ s, nthKept (false :: maskA) s = some (k + 1) ↔ ∃ t, s = t + 1 ∧ nthKept maskA t = some k := by
            intro s
            cases s with
            | zero => simp [nthKept]
            | succ s => simp [nthKept]
          rw [overlay, getElem?_cons_succ, getElem?_cons_succ, hrest k]
          constructor
          · rintro (h | ⟨s, hs, hk⟩)
            · exact .inl h
            · exact .inr ⟨s + 1, hs, (hsucc (s + 1)).mpr ⟨s, rfl, hk⟩⟩
          · rintro (h | ⟨s, hs, hk⟩)
            · exact .inl h
            · obtain ⟨t, rfl, ht⟩ := (hsucc s).mp hk
              exact .inr ⟨t, hs, ht⟩

theorem length_overlay (hlen : maskB.length = maskA.count false) : (overlay maskA maskB).length = maskA.length := by
  induction maskA generalizing maskB with
  | nil => exact hlen
  | cons a maskA ih =>
    cases a with
    | true =>
      rw [count_cons_of_ne (by simp)] at hlen
      rw [overlay, length_cons, length_cons, ih hlen]
    | false =>
      rw [count_cons_self] at hlen
      cases maskB with
      | nil => simp at hlen
      | cons b maskB => rw [overlay, length_cons, length_cons, ih (Nat.succ.inj hlen)]

variable {nAxes mapped : List Int}

theorem mem_mapped (h : nAxes.mapM (mapThroughRemovedAxes removed) = some mapped) {b : Int} :
    b ∈ mapped ↔ ∃ s : Nat, (s : Int) ∈ nAxes ∧ mapThrough s removed 0 = b := by
  induction nAxes generalizing mapped with
  | nil =>
    obtain rfl := Option.some.inj h
    simp
  | cons a nAxes ih =>
    simp only [mapM_cons, bind_eq_bind, bind_eq_some_iff, Option.pure_def, Option.some.injEq] at h
    obtain ⟨c, hc, rest, hrest, rfl⟩ := h
    rw [mapThroughRemovedAxes] at hc
    by_cases hneg : a < 0
    · rw [if_pos hneg] at hc
      cases hc
    · rw [if_neg hneg] at hc
      obtain rfl := Option.some.inj hc
      have hnat : ∀ s : Nat, (s : Int) = a ↔ s = a.toNat := by
        intro s
        omega
      rw [mem_cons, ih hrest]
      simp only [mem_cons, hnat]
      constructor
      · rintro (rfl | ⟨s, hs, rfl⟩)
        · exact ⟨a.toNat, .inl rfl, rfl⟩
        · exact ⟨s, .inr hs, rfl⟩
      · rintro ⟨s, rfl | hs, rfl⟩
        · exact .inl rfl
        · exact .inr ⟨s, hs, rfl⟩

theorem maskOf_mapped (hsorted : removed.Pairwise (· < ·)) (hrange : ∀ a ∈ removed, 0 ≤ a ∧ a < rank)
    (hmapped : nAxes.mapM (mapThroughRemovedAxes removed) = some mapped) :
    maskOf (sortUnique (removed ++ mapped)) rank =
      overlay (maskOf removed rank) (maskOf nAxes (rank - removed.length)) := by
  have hcount : (maskOf removed rank).count false + removed.length = rank :=
    count_maskFrom hsorted fun a ha => by simpa using hrange a ha
  have hlen : (maskOf nAxes (rank - removed.length)).length = (maskOf removed rank).count false := by
    rw [length_maskOf]
    omega
  apply ext_marks
  · rw [length_overlay hlen, length_maskOf, length_maskOf]
  · intro k
    have hspec := fun s => mapThrough_spec rank s hsorted fun a ha => (hrange a ha).1
    rw [getElem?_overlay hlen, maskOf_sortUnique]
    simp only [maskOf, getElem?_maskFrom, zero_add, mem_append, mem_mapped hmapped]
    constructor
    · rintro ⟨hk, hmem | ⟨s, hs, heq⟩⟩
      · exact .inl ⟨hk, hmem⟩
      · cases hkept : nthKept (maskFrom removed 0 rank) s with
        | none =>
          have := (hspec s).2 hkept
          omega
        | some j =>
          have hj := (hspec s).1 j hkept
          have hjk : j = k := by omega
          refine .inr ⟨s, ⟨?_, hs⟩, by rw [← hjk]; exact hkept⟩
          by_contra hge
          have hnone : nthKept (maskFrom removed 0 rank) s = none := by
            apply nthKept_eq_none
            simp only [maskOf] at hcount
            omega
          rw [hnone] at hkept
          cases hkept
    · rintro (⟨hk, hmem⟩ | ⟨s, ⟨-, hs⟩, hkept⟩)
      · exact ⟨hk, .inl hmem⟩
      · have hlt := nthKept_lt hkept
        have heq := (hspec s).1 k hkept
        rw [length_maskFrom] at hlt
        exact ⟨hlt, .inr ⟨s, hs, by omega⟩⟩

theorem mapped_range (hsorted : removed.Pairwise (· < ·)) (hrange : ∀ a ∈ removed, 0 ≤ a ∧ a < rank)
    (hmapped : nAxes.mapM (mapThroughRemovedAxes removed) = some mapped)
    (hn : ∀ a ∈ nAxes, a < ((rank - removed.length : Nat) : Int)) : ∀ b ∈ mapped, 0 ≤ b ∧ b < rank := by
  intro b hb
  obtain ⟨s, hs, rfl⟩ := (mem_mapped hmapped).mp hb
  have hcount : (maskOf removed rank).count false + removed.length = rank :=
    count_maskFrom hsorted fun a ha => by simpa using hrange a ha
  have hlt := hn s hs
  have hsome : (nthKept (maskFrom removed 0 rank) s).isSome := by
    apply nthKept_isSome
    simp only [maskOf] at hcount
    omega
  obtain ⟨k, hk⟩ := isSome_iff_exists.mp hsome
  have hkept := (mapThrough_spec rank s hsorted fun a ha => (hrange a ha).1).1 k hk
  have hklt := nthKept_lt hk
  rw [length_maskFrom] at hklt
  omega

theorem mapped_outside (hmapped : nAxes.mapM (mapThroughRemovedAxes removed) = some mapped)
    (hsorted : removed.Pairwise (· < ·)) (hall : ∀ a, a ∈ removed ↔ 0 ≤ a ∧ a < (rank : Int)) :
    ∀ b ∈ mapped, (rank : Int) ≤ b := by
  intro b hb
  obtain ⟨s, hs, rfl⟩ := (mem_mapped hmapped).mp hb
  have hspec := (mapThrough_spec rank s hsorted fun a ha => ((hall a).mp ha).1).2
  have hmarked : ∀ (mask : List Bool), (∀ b ∈ mask, b = true) → nthKept mask s = none := by
    intro mask hmask
    apply nthKept_eq_none
    rw [count_eq_zero.mpr fun hf => absurd (hmask false hf) (by simp)]
    exact Nat.zero_le s
  have hfull : ∀ c ∈ maskFrom removed 0 rank, c = true := by
    intro c hc
    obtain ⟨k, hk, rfl⟩ := getElem_of_mem hc
    have hlt : k < rank := by simpa using hk
    have hget : (maskFrom removed 0 rank)[k]? = some true :=
      (getElem?_maskFrom k).mpr ⟨hlt, (hall _).mpr ⟨by omega, by omega⟩⟩
    rw [getElem?_eq_getElem hk] at hget
    exact Option.some.inj hget
  have := hspec (hmarked _ hfull)
  omega

end Onnxsim.Reduce.Mapping
