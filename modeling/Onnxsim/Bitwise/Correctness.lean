import Onnxsim.Bitwise.Exactness

namespace Onnxsim.Bitwise.Correctness

open List Decomposition Exactness Meaning Splitting
open Lib.Dataflow
open Overflow.Arrays hiding readAt
open Proto.Graphs (Node)

variable {O : Type} {rt : Runtime O} {g : Graph} {types : Types} {ms : List Node} {ks : List Split} {v : ValueInfo}
  {x : String} {p : String × String} {k : Split}

theorem mem_of_byName (h : byName g x = some v) : v ∈ g.infos ∧ v.name = x := by
  refine ⟨mem_reverse.mp (mem_of_find?_eq_some h), ?_⟩
  simpa using find?_some h

theorem mem_names_of_derived (hk : k ∈ ks) (hp : p ∈ k.derived) : p.1 ∈ ks.flatMap Split.names := by
  refine mem_flatMap.mpr ⟨k, hk, ?_⟩
  rw [Split.derived, mem_cons, mem_singleton] at hp
  rcases hp with rfl | rfl <;> simp [Split.names]

theorem mem_added (h : Pass rt g types ms ks) :
    (v ∈ (rebuildValueInfo g (ks.flatMap Split.derived)).filter fun v => v.name ∉ g.valueInfo.map ValueInfo.name) ↔
      ∃ k ∈ ks, ∃ p ∈ k.derived, ∃ w, byName g p.2 = some w ∧ v = { w with name := p.1 } := by
  have hnew : ∀ k ∈ ks, ∀ p ∈ k.derived, p.1 ∉ g.valueInfo.map ValueInfo.name := by
    intro k hk p hp hmem
    obtain ⟨w, hw, heq⟩ := List.mem_map.mp hmem
    have hused : p.1 ∈ usedNames g := by
      rw [← heq]
      apply mem_usedNames_of_info
      exact mem_append_left _ (mem_append_left _ hw)
    exact (h.fresh _ (mem_names_of_derived hk hp)).1 hused
  simp only [rebuildValueInfo, mem_filter, mem_filterMap, mem_flatMap, Option.map_eq_some_iff,
    decide_eq_true_eq]
  constructor
  · rintro ⟨⟨p, ⟨k, hk, hp⟩, w, hw, rfl⟩, -⟩
    exact ⟨k, hk, p, hp, w, hw, rfl⟩
  · rintro ⟨k, hk, p, hp, w, hw, rfl⟩
    exact ⟨⟨p, ⟨k, hk, hp⟩, w, hw, rfl⟩, hnew k hk p hp⟩

variable {ρ : String → Nat} {e : String → Option (Tensor O)}

theorem eq_some_of_operand {e' : String → Option (Tensor O)} {v : Tensor O} (h : operand e' x = some v) :
    e' x = some v := by
  rw [operand] at h
  split at h
  · cases h
  · exact h

/-- A copy of an operand's value info is right of the intermediate exactly where broadcasting leaves the
lengths that it declares. -/
theorem declares_copy_iff (h : Pass rt g types ms ks) (ht : TruthfulRun ρ g (evalGraph rt g e)) (hk : k ∈ ks)
    (hp : p ∈ k.derived) {w : ValueInfo} (hw : byName g p.2 = some w) :
    (∀ t a, extend (behaviour rt) (intros ks) (evalGraph rt g e) p.1 = some (.ints t a) →
        Declares ρ { w with name := p.1 } t a.shape) ↔
      ∀ t a, evalGraph rt g e p.2 = some (.ints t a) →
        ∀ u z, evalGraph rt g e k.out = some (.ints u z) → Carries w a.shape z.shape := by
  obtain ⟨hinfo, hname⟩ := mem_of_byName hw
  rcases h.result e hk with ⟨hnone, hor, hand⟩ | ⟨t, x, y, s, hops, hout, hor, hand⟩
  · have hnew : extend (behaviour rt) (intros ks) (evalGraph rt g e) p.1 = none := by
      rw [Split.derived, mem_cons, mem_singleton] at hp
      rcases hp with rfl | rfl
      · exact hor
      · exact hand
    simp [hnone, hnew]
  · rw [operands, (h.splits.mem_split hk).2.2.1] at hops
    have hpair : operand (evalGraph rt g e) k.a = some (.ints t x) ∧
        operand (evalGraph rt g e) k.b = some (.ints t y) := by simpa using hops
    have hboth : ∃ f : List Nat → BitVec t.width, ∃ a₀ : NDArray (BitVec t.width),
        extend (behaviour rt) (intros ks) (evalGraph rt g e) p.1 = some (.ints t (NDArray.ofFn s f)) ∧
          evalGraph rt g e p.2 = some (.ints t a₀) := by
      rw [Split.derived, mem_cons, mem_singleton] at hp
      rcases hp with rfl | rfl
      · exact ⟨_, x, hor, eq_some_of_operand hpair.1⟩
      · exact ⟨_, y, hand, eq_some_of_operand hpair.2⟩
    obtain ⟨f, a₀, hnew, hold⟩ := hboth
    have htruth : Truthful ρ w t a₀.shape := ht w hinfo t a₀ (by rw [hname, hold])
    have hiff : Declares ρ { w with name := p.1 } t s ↔ Carries w a₀.shape s := declares_iff_carries htruth
    rw [hnew, hold, hout]
    constructor
    · intro hdecl u a ha u' z hz
      cases ha
      cases hz
      exact hiff.mp (hdecl t _ rfl)
    · intro hcarry u a ha
      cases ha
      exact hiff.mpr (hcarry t a₀ rfl t _ rfl)

theorem Decomposes.refl (hv : Valid rt g) : Decomposes rt ρ e g g :=
  ⟨rfl, rfl, rfl, hv, fun _ _ => rfl, fun _ hm hnot => absurd hm hnot, fun _ hm hnot => absurd hm hnot⟩

theorem unstretched_of_none (hnone : ∀ n ∈ g.node, ¬ Rewritable (elemTypes g) n) (e' : String → Option (Tensor O)) :
    Named g ∧ Unstretched g e' :=
  ⟨fun n hn hr => absurd hr (hnone n hn), fun n hn hr => absurd hr (hnone n hn)⟩

theorem unstretched_iff {ms : List Node} {ks : List Split} (h : Pass rt g (elemTypes g) ms ks)
    (e' : String → Option (Tensor O)) :
    Unstretched g e' ↔ ∀ k ∈ ks, ∀ p ∈ k.derived, ∀ w, byName g p.2 = some w → ∀ t a, e' p.2 = some (.ints t a) →
      ∀ u z, e' k.out = some (.ints u z) → Carries w a.shape z.shape := by
  constructor
  · intro hun k hk p hp w hw t a ha u z hz
    obtain ⟨hnode, hr, hin, hout, -⟩ := h.splits.mem_split hk
    have hmem : p.2 ∈ k.node.input := by
      rw [Split.derived, mem_cons, mem_singleton] at hp
      rw [hin]
      rcases hp with rfl | rfl <;> simp
    exact hun k.node hnode hr p.2 hmem w hw t a ha k.out (by simp [hout]) u z hz
  · intro hall n hn hr x hx w hw t a ha out hout u z hz
    obtain ⟨k, hk, rfl⟩ := h.splits.exists_split hn hr
    obtain ⟨-, -, hin, houtput, -⟩ := h.splits.mem_split hk
    have hsame : out = k.out := by simpa [houtput] using hout
    rw [hsame] at hz
    rw [hin, mem_cons, mem_singleton] at hx
    rcases hx with rfl | rfl
    · exact hall k hk (k.orName, k.a) (by simp [Split.derived]) w hw t a ha u z hz
    · exact hall k hk (k.andName, k.b) (by simp [Split.derived]) w hw t a ha u z hz

/-- The pass runs and its result computes the same, with the intermediates declared as they are, exactly where
every XOR names its result and no declared length of its operands is stretched. -/
theorem decomposeBitwiseXor_iff (hv : Valid rt g) (ht : TruthfulRun ρ g (evalGraph rt g e)) :
    (∃ g', decomposeBitwiseXor g = some g' ∧ Decomposes rt ρ e g g') ↔
      Named g ∧ Unstretched g (evalGraph rt g e) := by
  by_cases hany : g.node.any isXor = true
  · have hnamed : Named g ↔ (rewriteNodes (elemTypes g) g.node ⟨usedNames g, 0⟩).isSome :=
      (rewriteNodes_isSome g.node _).symm
    cases hrun : rewriteNodes (elemTypes g) g.node ⟨usedNames g, 0⟩ with
    | none =>
      have hfail : decomposeBitwiseXor g = none := by
        rw [decomposeBitwiseXor, if_pos hany, hrun]
        rfl
      rw [hrun] at hnamed
      simp [hfail, hnamed]
    | some new =>
      obtain ⟨ks, hsplits, hderived, hnodup, hfresh⟩ := splits_of_rewriteNodes hrun
      have hpass : Pass rt g (elemTypes g) new.1 ks := ⟨hv, hsplits, hnodup, hfresh⟩
      have hname : Named g := by
        rw [hnamed, hrun]
        rfl
      have hcode : decomposeBitwiseXor g = if new.2 = [] then some g else some { g with
          node := new.1
          valueInfo := g.valueInfo ++ (rebuildValueInfo g new.2).filter fun v =>
            v.name ∉ g.valueInfo.map ValueInfo.name } := by
        rw [decomposeBitwiseXor, if_pos hany, hrun]
        rfl
      by_cases hempty : new.2 = []
      · have hnone : ∀ n ∈ g.node, ¬ Rewritable (elemTypes g) n := by
          intro n hn hr
          obtain ⟨k, hk, -⟩ := hsplits.exists_split hn hr
          rw [hderived, flatMap_eq_nil_iff] at hempty
          exact absurd (hempty k hk) (by simp [Split.derived])
        rw [if_pos hempty] at hcode
        exact iff_of_true ⟨g, hcode, Decomposes.refl hv⟩ (unstretched_of_none hnone _)
      · rw [if_neg hempty, hderived] at hcode
        rw [hcode, unstretched_iff hpass]
        constructor
        · rintro ⟨g', heq, hdec⟩
          cases heq
          refine ⟨hname, ?_⟩
          intro k hk p hp w hw
          apply (declares_copy_iff hpass ht hk hp hw).mp
          have hadded := (mem_added hpass).mpr ⟨k, hk, p, hp, w, hw, rfl⟩
          have hnew : ({ w with name := p.1 } : ValueInfo) ∉ g.valueInfo := by
            intro hmem
            have hnot := (mem_filter.mp hadded).2
            rw [decide_eq_true_eq] at hnot
            exact hnot (List.mem_map_of_mem hmem)
          intro t a ha
          apply hdec.declared _ (mem_append_right _ hadded) hnew
          rw [hpass.eval_after e _ (.inr (mem_names_of_derived hk hp))]
          exact ha
        · rintro ⟨-, hun⟩
          refine ⟨_, rfl, rfl, rfl, rfl, hpass.valid_after _, ?_, ?_, ?_⟩
          · intro v hvo
            have hused : v.name ∈ usedNames g := mem_usedNames_of_info (mem_append_right _ hvo)
            rw [hpass.eval_after e _ (.inl hused), extend_old hpass.introduces hused]
          · intro m hm hnew hop
            exact hpass.noOverflow e _ hm hnew hop
          · intro v hvmem hnew t a ha
            have hadded := (mem_append.mp hvmem).resolve_left hnew
            obtain ⟨k, hk, p, hp, w, hw, rfl⟩ := (mem_added hpass).mp hadded
            rw [hpass.eval_after e _ (.inr (mem_names_of_derived hk hp))] at ha
            exact (declares_copy_iff hpass ht hk hp hw).mpr (hun k hk p hp w hw) t a ha
  · have hsame : decomposeBitwiseXor g = some g := by rw [decomposeBitwiseXor, if_neg hany]
    have hnone : ∀ n ∈ g.node, ¬ Rewritable (elemTypes g) n := by
      intro n hn hr
      exact hany (List.any_eq_true.mpr ⟨n, hn, hr.1⟩)
    exact iff_of_true ⟨g, hsame, Decomposes.refl hv⟩ (unstretched_of_none hnone _)

def noOperators : Runtime Unit := ⟨fun _ _ => [], fun _ _ _ _ => rfl⟩

def int32Info (x : String) (s : List Nat) : ValueInfo := ⟨x, 6, some (s.map Dim.value)⟩

def stretchedXor : Graph where
  node := [.mk "" "" "BitwiseXor" ["a", "b"] ["y"] []]
  input := [int32Info "a" [2, 3], int32Info "b" [3]]
  output := [int32Info "y" [2, 3]]
  valueInfo := []
  initializer := []

def stretchedFeed (x : String) : Option (Tensor Unit) :=
  if x = "a" then some (.ints .int32 (NDArray.full [2, 3] 5#32))
  else if x = "b" then some (.ints .int32 (NDArray.full [3] 3#32)) else none

def stretchedAfter : Graph where
  node := [.mk "y_or" "" "BitwiseOr" ["a", "b"] ["y_bor_1"] [], .mk "y_and" "" "BitwiseAnd" ["a", "b"] ["y_band_2"] [],
    .mk "y" "" "Sub" ["y_bor_1", "y_band_2"] ["y"] []]
  input := [int32Info "a" [2, 3], int32Info "b" [3]]
  output := [int32Info "y" [2, 3]]
  valueInfo := [int32Info "y_bor_1" [2, 3], int32Info "y_band_2" [3]]
  initializer := []

theorem valid_stretchedXor : Valid noOperators stretchedXor := by
  have hwritten : ∀ n, written (behaviour noOperators) n = Onnxsim.Proto.Graphs.nonempty n.output :=
    written_eq noOperators
  have hdefs : defs stretchedXor = ["a", "b"] := by decide
  constructor
  · rw [hdefs]
    refine ⟨?_, trivial⟩
    intro x hx
    exact (Node.mem_input_of_reads rfl hx).1
  · rw [hdefs, SingleAssignment, stretchedXor, flatMap_singleton, hwritten]
    decide

theorem truthful_stretchedXor : TruthfulRun (fun _ => 0) stretchedXor (evalGraph noOperators stretchedXor stretchedFeed) := by
  have htruth : ∀ x s, Truthful (fun _ => 0) (int32Info x s) .int32 s := by
    intro x s
    refine ⟨fun _ => rfl, ?_⟩
    intro dims hdims
    cases hdims
    induction s with
    | nil => exact .nil
    | cons n s ih => exact .cons rfl ih
  have ha : evalGraph noOperators stretchedXor stretchedFeed "a" = some (.ints .int32 (NDArray.full [2, 3] 5#32)) := rfl
  have hb : evalGraph noOperators stretchedXor stretchedFeed "b" = some (.ints .int32 (NDArray.full [3] 3#32)) := rfl
  have hy : evalGraph noOperators stretchedXor stretchedFeed "y" = some (.ints .int32 (NDArray.full [2, 3] 6#32)) := rfl
  intro v hv t z hz
  have hinfo : v = int32Info "a" [2, 3] ∨ v = int32Info "b" [3] ∨ v = int32Info "y" [2, 3] := by
    simpa [Graph.infos, stretchedXor] using hv
  rcases hinfo with rfl | rfl | rfl
  · cases ha.symm.trans hz
    exact htruth "a" [2, 3]
  · cases hb.symm.trans hz
    exact htruth "b" [3]
  · cases hy.symm.trans hz
    exact htruth "y" [2, 3]

theorem decomposeBitwiseXor_iff_stretched :
    (∃ g', decomposeBitwiseXor stretchedXor = some g' ∧
        Decomposes noOperators (fun _ => 0) stretchedFeed stretchedXor g') ↔
      Named stretchedXor ∧ Unstretched stretchedXor (evalGraph noOperators stretchedXor stretchedFeed) :=
  decomposeBitwiseXor_iff valid_stretchedXor truthful_stretchedXor

/-- The AND has the shape `[2, 3]` and is declared to have the shape `[3]`. -/
theorem decomposeBitwiseXor_stretched : ¬ ∀ (rt : Runtime Unit) (ρ : String → Nat) (g : Graph)
    (e : String → Option (Tensor Unit)), Valid rt g → TruthfulRun ρ g (evalGraph rt g e) →
      ∃ g', decomposeBitwiseXor g = some g' ∧ Decomposes rt ρ e g g' := by
  intro hall
  obtain ⟨g', hcode, hdec⟩ := hall _ _ _ _ valid_stretchedXor truthful_stretchedXor
  have hafter : decomposeBitwiseXor stretchedXor = some stretchedAfter := rfl
  cases hcode.symm.trans hafter
  have hand : evalGraph noOperators stretchedAfter stretchedFeed "y_band_2" =
      some (.ints .int32 (NDArray.full [2, 3] 1#32)) := rfl
  obtain ⟨-, dims, hdims, hfits⟩ := hdec.declared (int32Info "y_band_2" [3]) (by decide) (by decide) _ _ hand
  cases hdims
  cases hfits with
  | cons _ hrest => cases hrest

end Onnxsim.Bitwise.Correctness
