import Onnxsim.Overflow.Intervals
import Onnxsim.Slicing.Agreement

namespace Onnxsim.Overflow.IndexFacts

open List Option Lib.Progressions Arrays Intervals Operators
open ShapeRanges.Dims Slicing.Agreement

section

inductive Verdict where
  | inRange
  | outOfRange
  | unknown
deriving DecidableEq, Repr

structure IndexFact where
  node : String
  opType : String
  axis : Int
  verdict : Verdict
  indexHull : Option (Ext × Ext)
  size : Option Dim
  detail : String

structure IndexNode where
  opType : String
  axis : Option Int
  inputs : List String
  outputs : List String

structure IndexFactsReport where
  facts : List IndexFact

/-- Every covered index is in range for every input in the box. -/
def IndexFactsReport.proved (report : IndexFactsReport) : Bool := report.facts.all fun f => f.verdict = .inRange

def dimText (d : Dim) : String :=
  let name := match d.sym with
    | some s => if s = "" then "" else s ++ ":"
    | none => ""
  if d.isExact then name ++ toString d.lo
  else name ++ "[" ++ toString d.lo ++ "," ++ (d.hi.map toString).getD "inf" ++ "]"

variable (format : ℚ → String) (res : String → Option Enclosure)

def shapeOf : Enclosure → Shape
  | .static lo _ => lo.shape.map exact
  | .ranged shape _ => shape

/-- Hull of the values; `(∞, -∞)` for an empty tensor. -/
def hullOf : Enclosure → Ext × Ext
  | .static lo hi => if lo.data = [] then (((⊤ : WithTop ℚ) : Ext), ⊥) else (Enclosure.static lo hi).hull
  | .ranged shape hull => (Enclosure.ranged shape hull).hull

def intOf (x : Ext) : Option Int := (finite? x).bind fun q => if q.isInt then some q.num else none

def staticInts (name : String) : Option (List Int) :=
  match res name with
  | some (.static lo hi) => if lo = hi then lo.data.mapM intOf else none
  | _ => none

def normalizeAxis (axis : Int) (rank : Nat) : Option Nat :=
  let a := if axis < 0 then axis + rank else axis
  if 0 ≤ a ∧ a < rank then some a.toNat else none

def judgeFinite (op out : String) (axis : Int) (dim : Dim) (lo hi : ℚ) (what : String) : IndexFact :=
  let hull := some (fin lo, fin hi)
  let bounds := what ++ " in [" ++ format lo ++ ", " ++ format hi ++ "]"
  if -(dim.lo : ℚ) ≤ lo ∧ hi ≤ dim.lo - 1 then
    ⟨out, op, axis, .inRange, hull, some dim, bounds ++ " is valid for axis size >= " ++ toString dim.lo⟩
  else if dim.isExact ∧ ((dim.lo : ℚ) - 1 < lo ∨ hi < -(dim.lo : ℚ)) then
    ⟨out, op, axis, .outOfRange, hull, some dim,
      "every " ++ what ++ " lies outside [-" ++ toString dim.lo ++ ", " ++ toString ((dim.lo : Int) - 1) ++ "]"⟩
  else
    ⟨out, op, axis, .unknown, hull, some dim,
      bounds ++ " is not inside [-" ++ toString dim.lo ++ ", " ++ toString ((dim.lo : Int) - 1) ++ "] for axis size " ++
        dimText dim⟩

def judge (op out : String) (axis : Int) (dim : Dim) (hull : Option (Ext × Ext)) (what : String) : IndexFact :=
  match hull with
  | none => ⟨out, op, axis, .unknown, none, some dim, what ++ " has no interval"⟩
  | some (lo, hi) =>
    if hi < lo then ⟨out, op, axis, .inRange, none, some dim, what ++ " is empty"⟩
    else
      match finite? lo, finite? hi with
      | some lo, some hi => judgeFinite format op out axis dim lo hi what
      | _, _ => ⟨out, op, axis, .unknown, some (lo, hi), some dim, what ++ " is unbounded"⟩

def unknownFact (op out : String) (axis : Int) (detail : String) : IndexFact :=
  ⟨out, op, axis, .unknown, none, none, detail⟩

def axisText (axis : Int) (rank : Nat) : String :=
  "axis " ++ toString axis ++ " is out of range for rank " ++ toString rank

def judgeAxis (op out : String) (shape : Shape) (axis : Int) (hull : Option (Ext × Ext)) (what : String) : IndexFact :=
  match (normalizeAxis axis shape.length).bind fun a => shape[a]?.map fun dim => (a, dim) with
  | none => unknownFact op out axis (axisText axis shape.length)
  | some (a, dim) => judge format op out a dim hull what

def input (node : IndexNode) (i : Nat) : String := node.inputs[i]?.getD ""

def output (node : IndexNode) : String := node.outputs[0]?.getD ""

def gatherFact (node : IndexNode) : IndexFact :=
  match res (input node 0) with
  | none => unknownFact node.opType (output node) (node.axis.getD 0) "data has no interval"
  | some data =>
    judgeAxis format node.opType (output node) (shapeOf data) (node.axis.getD 0) ((res (input node 1)).map hullOf) "index"

def sliceAxes (node : IndexNode) (count : Nat) : Option (List Int) :=
  if input node 3 = "" then some (List.map (fun i : Nat => (i : Int)) (List.range count))
  else (staticInts res (input node 3)).bind fun axes => if axes.length = count then some axes else none

def sliceFacts (node : IndexNode) : List IndexFact :=
  let unknown := fun detail => [unknownFact "Slice" (output node) (-1) detail]
  match res (input node 0), if input node 1 = "" then none else res (input node 1) with
  | some data, some (.static lo hi) =>
    match sliceAxes res node lo.data.length with
    | none => unknown "axes is not a static list matching starts"
    | some axes =>
      (axes.zip (lo.data.zip hi.data)).zipIdx.map fun e =>
        judgeAxis format "Slice" (output node) (shapeOf data) e.1.1 (some e.1.2) ("start[" ++ toString e.2 ++ "]")
  | some _, some (.ranged _ _) => unknown "starts has a ranged shape"
  | _, _ => unknown "operands have no interval"

def nodeFacts (node : IndexNode) : List IndexFact :=
  if node.opType = "Gather" ∨ node.opType = "GatherElements" then [gatherFact format res node]
  else if node.opType = "Slice" then sliceFacts format res node
  else []

/-- `index_facts` on the intervals of the model's tensors. -/
def indexFacts (nodes : List IndexNode) : IndexFactsReport := ⟨nodes.flatMap (nodeFacts format res)⟩

end

/-- An index that an axis of `n` places has. -/
def Valid (n : Nat) (v : ℚ) : Prop := -(n : ℚ) ≤ v ∧ v ≤ n - 1

def Sound (res : String → Option Enclosure) (env : String → Option Tensor) : Prop :=
  ∀ name e, res name = some e → ∃ t, env name = some t ∧ e.Encloses t

/-- When a slice takes nothing from an axis of `n` places, for a start outside them. -/
def TakesNothing (n start stop step : Int) : Prop :=
  n = 0 ∨ (0 < step ∧ (n ≤ start ∨ stop = 0 ∨ stop ≤ -n)) ∨
    (step < 0 ∧ ((n ≤ start ∧ (n - 1 ≤ stop ∨ stop = -1)) ∨ (start < -n ∧ -n ≤ stop)))

theorem takesNothing_iff {n start stop step : Int} (hn : 0 ≤ n) (hstep : step ≠ 0)
    (hout : n ≤ start ∨ start < -n) : onnxLength n start stop step = 0 ↔ TakesNothing n start stop step := by
  by_cases hzero : n = 0
  · subst hzero
    exact iff_of_true onnxLength_zero (.inl rfl)
  · rw [onnxLength_eq hzero hstep]
    by_cases hpos : 0 < step
    · rw [count_eq_zero_iff_of_pos hpos, TakesNothing, onnxEnd, onnxStart, if_pos hpos, if_pos hpos, fromEnd, fromEnd]
      split <;> split <;> omega
    · have hneg : step < 0 := by omega
      rw [count_eq_zero_iff_of_neg hneg, TakesNothing, onnxEnd, onnxStart, if_neg hpos, if_neg hpos, fromEnd, fromEnd]
      split <;> split <;> omega

variable {hull : Option (Ext × Ext)} {format : ℚ → String} {op out what : String} {axis : Int} {dim : Dim}
  {lo hi : Ext} {v : ℚ} {n : Nat}

/-- A verdict other than unknown is on a finite interval around the value. -/
theorem exists_judgeFinite (h : (judge format op out axis dim hull what).verdict ≠ .unknown)
    (hv : ∀ b, hull = some b → b.1 ≤ fin v ∧ fin v ≤ b.2) :
    ∃ p q, p ≤ v ∧ v ≤ q ∧ judge format op out axis dim hull what = judgeFinite format op out axis dim p q what := by
  cases hull with
  | none => exact absurd rfl h
  | some b =>
    obtain ⟨hlo, hhi⟩ := hv b rfl
    obtain ⟨lo, hi⟩ := b
    simp only [judge, if_neg (not_lt.mpr (hlo.trans hhi))] at h ⊢
    cases hp : finite? lo with
    | none => simp [hp] at h
    | some p =>
      cases hq : finite? hi with
      | none => simp [hp, hq] at h
      | some q =>
        rw [eq_fin_of_finite? hp] at hlo
        rw [eq_fin_of_finite? hq] at hhi
        exact ⟨p, q, fin_le_fin.mp hlo, fin_le_fin.mp hhi, rfl⟩

theorem judge_inRange (h : (judge format op out axis dim hull what).verdict = .inRange)
    (hv : ∀ b, hull = some b → b.1 ≤ fin v ∧ fin v ≤ b.2) (hn : dim.contains n = true) : Valid n v := by
  obtain ⟨p, q, hpv, hvq, heq⟩ := exists_judgeFinite (by rw [h]; decide) hv
  rw [heq, judgeFinite] at h
  by_cases hin : -(dim.lo : ℚ) ≤ p ∧ q ≤ dim.lo - 1
  · have hlow : dim.lo ≤ n := by
      simp only [Dim.contains, Bool.and_eq_true, decide_eq_true_eq] at hn
      exact hn.1
    have hcast : (dim.lo : ℚ) ≤ n := Nat.cast_le.mpr hlow
    constructor <;> linarith [hin.1, hin.2]
  · rw [if_neg hin] at h
    split at h <;> cases h

theorem judge_outOfRange (h : (judge format op out axis dim hull what).verdict = .outOfRange)
    (hv : ∀ b, hull = some b → b.1 ≤ fin v ∧ fin v ≤ b.2) (hn : dim.contains n = true) :
    (n : ℚ) - 1 < v ∨ v < -(n : ℚ) := by
  obtain ⟨p, q, hpv, hvq, heq⟩ := exists_judgeFinite (by rw [h]; decide) hv
  rw [heq, judgeFinite] at h
  by_cases hin : -(dim.lo : ℚ) ≤ p ∧ q ≤ dim.lo - 1
  · rw [if_pos hin] at h
    cases h
  · rw [if_neg hin] at h
    by_cases hout : dim.isExact ∧ ((dim.lo : ℚ) - 1 < p ∨ q < -(dim.lo : ℚ))
    · have hsame : n = dim.lo := by
        have hexact : dim.hi = some dim.lo := by simpa [Dim.isExact] using hout.1
        simp only [Dim.contains, Bool.and_eq_true, decide_eq_true_eq, hexact, all_some] at hn
        omega
      subst hsame
      rcases hout.2 with hhigh | hlow
      · left
        linarith
      · right
        linarith
    · rw [if_neg hout] at h
      cases h

variable {res : String → Option Enclosure} {env : String → Option Tensor} {node : IndexNode} {fact : IndexFact}
  {t : Tensor} {e : Enclosure} {axes : List Int} {k : Nat}

theorem mem_hullOf (h : e.Encloses t) (hv : v ∈ t.data) : (hullOf e).1 ≤ fin v ∧ fin v ≤ (hullOf e).2 := by
  cases e with
  | ranged shape hull => exact mem_hull h hv
  | static lo hi =>
    have hne : lo.data ≠ [] := by
      intro hnil
      have hlen := h.2.1.length_eq
      rw [hnil] at hlen
      rw [length_eq_zero_iff.mp hlen.symm] at hv
      cases hv
    rw [hullOf, if_neg hne]
    exact mem_hull h hv

theorem shapeOf_contains (h : e.Encloses t) {a : Nat} (hdim : (shapeOf e)[a]? = some dim) :
    ∃ n, t.shape[a]? = some n ∧ dim.contains n = true := by
  have hallows : Allows (shapeOf e) t.shape := by
    cases e with
    | ranged shape hull => exact h.1
    | static lo hi =>
      rw [shapeOf, ← h.1, Allows, forall₂_map_left_iff]
      apply forall₂_same.mpr
      intro n hn
      simp [exact, Dim.contains]
  obtain ⟨hlen, hget⟩ := forall₂_iff_get.mp hallows
  obtain ⟨ha, hdim⟩ := List.getElem?_eq_some_iff.mp hdim
  have ha' : a < t.shape.length := hlen ▸ ha
  have hcontains := hget a ha ha'
  rw [get_eq_getElem, get_eq_getElem, hdim] at hcontains
  exact ⟨t.shape[a], getElem?_eq_getElem ha', hcontains⟩

theorem judgeAxis_cases {shape : Shape} (h : (judgeAxis format op out shape axis hull what).verdict ≠ .unknown) :
    ∃ a dim, normalizeAxis axis shape.length = some a ∧ shape[a]? = some dim ∧
      judgeAxis format op out shape axis hull what = judge format op out a dim hull what := by
  unfold judgeAxis at h ⊢
  cases hbind : (normalizeAxis axis shape.length).bind fun a => shape[a]?.map fun dim => (a, dim) with
  | none => simp [hbind, unknownFact] at h
  | some p =>
    obtain ⟨a, ha, hmap⟩ := bind_eq_some_iff.mp hbind
    obtain ⟨dim, hdim, rfl⟩ := map_eq_some_iff.mp hmap
    exact ⟨a, dim, ha, hdim, rfl⟩

theorem judge_fields :
    (judge format op out axis dim hull what).axis = axis ∧ (judge format op out axis dim hull what).size = some dim := by
  unfold judge
  cases hull with
  | none => exact ⟨rfl, rfl⟩
  | some b =>
    dsimp only
    split
    · exact ⟨rfl, rfl⟩
    · split
      · unfold judgeFinite
        split
        · exact ⟨rfl, rfl⟩
        · split <;> exact ⟨rfl, rfl⟩
      · exact ⟨rfl, rfl⟩

/-- What a fact on a `Gather` says of a run: an index is valid for every size of the reported dimension, or the
node fails unless it has no indices. -/
def GatherHolds (node : IndexNode) (fact : IndexFact) (env : String → Option Tensor) : Prop :=
  fact.verdict ≠ .unknown → ∃ a n data idx dim, fact.axis = (a : Nat) ∧ fact.size = some dim ∧
    env (input node 0) = some data ∧ env (input node 1) = some idx ∧ data.shape[a]? = some n ∧ dim.contains n = true ∧
    (fact.verdict = .inRange → ∀ m, dim.contains m = true → ∀ v ∈ idx.data, Valid m v) ∧
    (fact.verdict = .outOfRange → ((∃ v ∈ idx.data, ¬Valid n v) ↔ idx.data ≠ []))

theorem not_valid {n : Nat} (h : (n : ℚ) - 1 < v ∨ v < -(n : ℚ)) : ¬Valid n v := by
  rintro ⟨hlow, hhigh⟩
  rcases h with h | h
  · exact absurd hhigh (not_le.mpr h)
  · exact absurd hlow (not_le.mpr h)

theorem gatherFact_holds (hsound : Sound res env) : GatherHolds node (gatherFact format res node) env := by
  intro hknown
  unfold gatherFact at hknown ⊢
  cases hdata : res (input node 0) with
  | none => simp [hdata, unknownFact] at hknown
  | some data =>
    simp only [hdata] at hknown ⊢
    obtain ⟨t, ht, hencloses⟩ := hsound _ _ hdata
    obtain ⟨a, dim, -, hdim, heq⟩ := judgeAxis_cases hknown
    obtain ⟨n, hn, hcontains⟩ := shapeOf_contains hencloses hdim
    rw [heq] at hknown ⊢
    cases hindex : res (input node 1) with
    | none => simp [hindex, judge] at hknown
    | some index =>
      obtain ⟨idx, hidx, hindices⟩ := hsound _ _ hindex
      have hhull : ∀ v ∈ idx.data, ∀ b, (some index).map hullOf = some b → b.1 ≤ fin v ∧ fin v ≤ b.2 := by
        intro v hv b hb
        obtain rfl := Option.some.inj hb
        exact mem_hullOf hindices hv
      refine ⟨a, n, t, idx, dim, judge_fields.1, judge_fields.2, ht, hidx, hn, hcontains, ?_, ?_⟩
      · intro hin m hm v hv
        exact judge_inRange hin (hhull v hv) hm
      · intro hout
        constructor
        · rintro ⟨v, hv, -⟩
          exact ne_nil_of_mem hv
        · intro hne
          obtain ⟨v, hv⟩ := exists_mem_of_ne_nil _ hne
          exact ⟨v, hv, not_valid (judge_outOfRange hout (hhull v hv) hcontains)⟩

/-- What the `k`-th fact on a `Slice` says of a run: the start is a valid index, or it lies outside the axis and
the slice takes something unless it is one of those that take nothing. -/
def SliceHolds (node : IndexNode) (k : Nat) (fact : IndexFact) (env : String → Option Tensor) : Prop :=
  fact.verdict ≠ .unknown → ∃ a n data starts v dim, fact.axis = (a : Nat) ∧ fact.size = some dim ∧
    env (input node 0) = some data ∧ env (input node 1) = some starts ∧ data.shape[a]? = some n ∧
    dim.contains n = true ∧ starts.data[k]? = some v ∧
    (input node 3 = "" → normalizeAxis k data.shape.length = some a) ∧
    (input node 3 ≠ "" → ∃ axes ax, env (input node 3) = some axes ∧ axes.data[k]? = some ((ax : Int) : ℚ) ∧
      normalizeAxis ax data.shape.length = some a) ∧
    (fact.verdict = .inRange → ∀ m, dim.contains m = true → Valid m v) ∧
    (fact.verdict = .outOfRange → ¬Valid n v ∧ ∀ start stop step : Int, (start : ℚ) = v → step ≠ 0 →
      (onnxLength n start stop step = 0 ↔ TakesNothing n start stop step))

theorem length_shapeOf (h : e.Encloses t) : (shapeOf e).length = t.shape.length := by
  cases e with
  | ranged shape hull => exact h.1.length_eq
  | static lo hi => rw [shapeOf, length_map, h.1]

theorem mapM_intOf {xs : List Ext} {as : List Int} (h : xs.mapM intOf = some as) :
    xs = as.map fun a : Int => fin (a : ℚ) := by
  induction xs generalizing as with
  | nil =>
    obtain rfl := Option.some.inj h
    rfl
  | cons x xs ih =>
    simp only [mapM_cons, bind_eq_bind, bind_eq_some_iff, Option.pure_def, Option.some.injEq] at h
    obtain ⟨a, ha, rest, hrest, rfl⟩ := h
    obtain ⟨q, hq, hint⟩ := bind_eq_some_iff.mp ha
    by_cases hisInt : q.isInt
    · rw [if_pos hisInt] at hint
      obtain rfl := Option.some.inj hint
      have hcast : ((q.num : Int) : ℚ) = q := (Rat.eq_num_of_isInt hisInt).symm
      rw [map_cons, ← ih hrest, hcast, eq_fin_of_finite? hq]
    · rw [if_neg hisInt] at hint
      cases hint

theorem staticInts_run (hsound : Sound res env) {name : String} (h : staticInts res name = some axes) :
    ∃ t, env name = some t ∧ t.data = axes.map fun a : Int => (a : ℚ) := by
  unfold staticInts at h
  cases hres : res name with
  | none => simp [hres] at h
  | some e =>
    cases e with
    | ranged shape hull => simp [hres] at h
    | static lo hi =>
      simp only [hres] at h
      by_cases hsame : lo = hi
      · rw [if_pos hsame] at h
        subst hsame
        obtain ⟨t, ht, hencloses⟩ := hsound _ _ hres
        refine ⟨t, ht, ?_⟩
        obtain ⟨hbelow, habove⟩ := hencloses.2
        rw [mapM_intOf h] at hbelow habove
        rw [forall₂_map_left_iff] at hbelow
        rw [forall₂_map_right_iff] at habove
        have heq : List.Forall₂ (fun (v : ℚ) (a : Int) => v = (a : ℚ)) t.data axes := by
          have hboth := List.Forall₂.flip hbelow
          apply forall₂_iff_get.mpr
          refine ⟨habove.length_eq, ?_⟩
          intro i h₁ h₂
          have hle := (forall₂_iff_get.mp habove).2 i h₁ h₂
          have hge := (forall₂_iff_get.mp hboth).2 i h₁ h₂
          exact le_antisymm (fin_le_fin.mp hle) (fin_le_fin.mp hge)
        rw [← forall₂_eq_eq_eq, forall₂_map_right_iff]
        exact heq
      · rw [if_neg hsame] at h
        cases h

theorem start_within {lo hi : NDArray Ext} (h : (Enclosure.static lo hi).Encloses t) {l u : Ext}
    (hl : lo.data[k]? = some l) (hu : hi.data[k]? = some u) : ∃ v, t.data[k]? = some v ∧ l ≤ fin v ∧ fin v ≤ u := by
  obtain ⟨hbelow, habove⟩ := h.2
  obtain ⟨hk, rfl⟩ := List.getElem?_eq_some_iff.mp hl
  obtain ⟨hk', rfl⟩ := List.getElem?_eq_some_iff.mp hu
  have hlt : k < t.data.length := hbelow.length_eq ▸ hk
  exact ⟨t.data[k], getElem?_eq_getElem hlt, (forall₂_iff_get.mp hbelow).2 k hk hlt,
    (forall₂_iff_get.mp habove).2 k hlt hk'⟩

theorem verdict_of_unknown {detail : String} (h : [unknownFact op out axis detail][k]? = some fact) :
    fact.verdict = .unknown := by
  have hmem := mem_of_getElem? h
  rw [mem_singleton.mp hmem]
  rfl

theorem sliceAxes_run (hsound : Sound res env) {count : Nat} {ax : Int} (h : sliceAxes res node count = some axes)
    (hk : axes[k]? = some ax) :
    (input node 3 = "" → ax = k) ∧
      (input node 3 ≠ "" → ∃ t, env (input node 3) = some t ∧ t.data[k]? = some (ax : ℚ)) := by
  unfold sliceAxes at h
  by_cases hempty : input node 3 = ""
  · rw [if_pos hempty] at h
    obtain rfl := Option.some.inj h
    refine ⟨fun _ => ?_, fun hne => absurd hempty hne⟩
    obtain ⟨i, hi, rfl⟩ := map_eq_some_iff.mp ((getElem?_map ..).symm.trans hk)
    obtain ⟨hlt, hget⟩ := List.getElem?_eq_some_iff.mp hi
    rw [getElem_range] at hget
    rw [hget]
  · rw [if_neg hempty] at h
    refine ⟨fun heq => absurd heq hempty, fun _ => ?_⟩
    obtain ⟨bs, hbs, hlen⟩ := bind_eq_some_iff.mp h
    by_cases hcount : bs.length = count
    · rw [if_pos hcount] at hlen
      obtain rfl := Option.some.inj hlen
      obtain ⟨t, ht, hdata⟩ := staticInts_run hsound hbs
      exact ⟨t, ht, by rw [hdata, getElem?_map, hk, map_some]⟩
    · rw [if_neg hcount] at hlen
      cases hlen

theorem sliceFacts_hold (hsound : Sound res env) (hk : (sliceFacts format res node)[k]? = some fact) :
    SliceHolds node k fact env := by
  intro hknown
  unfold sliceFacts at hk
  cases hdata : res (input node 0) with
  | none =>
    simp only [hdata] at hk
    exact absurd (verdict_of_unknown hk) hknown
  | some data =>
    cases hstarts : (if input node 1 = "" then none else res (input node 1)) with
    | none =>
      simp only [hdata, hstarts] at hk
      exact absurd (verdict_of_unknown hk) hknown
    | some starts =>
      cases starts with
      | ranged shape hull =>
        simp only [hdata, hstarts] at hk
        exact absurd (verdict_of_unknown hk) hknown
      | static lo hi =>
        simp only [hdata, hstarts] at hk
        cases haxes : sliceAxes res node lo.data.length with
        | none =>
          simp only [haxes] at hk
          exact absurd (verdict_of_unknown hk) hknown
        | some axes =>
          simp only [haxes, getElem?_map, getElem?_zipIdx, Option.map_map] at hk
          obtain ⟨e, he, hfact⟩ := map_eq_some_iff.mp hk
          obtain ⟨ax, l, u⟩ := e
          simp only [Function.comp_apply, Nat.zero_add] at hfact
          obtain ⟨hax, hbounds⟩ := getElem?_zip_eq_some.mp he
          obtain ⟨hl, hu⟩ := getElem?_zip_eq_some.mp hbounds
          have hstartsRes : res (input node 1) = some (.static lo hi) := by
            by_cases hempty : input node 1 = ""
            · rw [if_pos hempty] at hstarts
              cases hstarts
            · rwa [if_neg hempty] at hstarts
          obtain ⟨t, ht, hencloses⟩ := hsound _ _ hdata
          obtain ⟨s, hs, hwithin⟩ := hsound _ _ hstartsRes
          subst hfact
          obtain ⟨a, dim, hnorm, hdim, heq⟩ := judgeAxis_cases hknown
          obtain ⟨n, hn, hcontains⟩ := shapeOf_contains hencloses hdim
          obtain ⟨v, hv, hlv, hvu⟩ := start_within hwithin hl hu
          obtain ⟨hrange, hgiven⟩ := sliceAxes_run hsound haxes hax
          rw [length_shapeOf hencloses] at hnorm
          rw [heq]
          have hhull : ∀ b, some (l, u) = some b → b.1 ≤ fin v ∧ fin v ≤ b.2 := by
            intro b hb
            obtain rfl := Option.some.inj hb
            exact ⟨hlv, hvu⟩
          refine ⟨a, n, t, s, v, dim, judge_fields.1, judge_fields.2, ht, hs, hn, hcontains, hv, ?_, ?_, ?_, ?_⟩
          · intro hempty
            rw [← hrange hempty]
            exact hnorm
          · intro hne
            obtain ⟨axesT, haxesT, hget⟩ := hgiven hne
            exact ⟨axesT, ax, haxesT, hget, hnorm⟩
          · intro hin m hm
            exact judge_inRange hin hhull hm
          · intro hout
            have houtside := judge_outOfRange hout hhull hcontains
            refine ⟨not_valid houtside, ?_⟩
            rintro start stop step rfl hstep
            apply takesNothing_iff (Int.natCast_nonneg n) hstep
            rcases houtside with h | h
            · left
              have hcast : ((n : Int) : ℚ) < ((start + 1 : Int) : ℚ) := by
                push_cast
                linarith
              have := Int.cast_lt.mp hcast
              omega
            · right
              have hcast : (start : ℚ) < ((-(n : Int) : Int) : ℚ) := by
                exact h
              exact Int.cast_lt.mp hcast

theorem mem_facts {nodes : List IndexNode} :
    fact ∈ (indexFacts format res nodes).facts ↔ ∃ node ∈ nodes, fact ∈ nodeFacts format res node :=
  mem_flatMap

/-- From sound intervals, what the facts on a `Gather`, a `GatherElements` and a `Slice` say holds in every run. -/
theorem index_facts_exact (hsound : Sound res env) :
    ((node.opType = "Gather" ∨ node.opType = "GatherElements") →
      ∀ fact ∈ nodeFacts format res node, GatherHolds node fact env) ∧
    (node.opType = "Slice" → ∀ (k : Nat) fact, (nodeFacts format res node)[k]? = some fact →
      SliceHolds node k fact env) := by
  constructor
  · intro hop fact hmem
    rw [nodeFacts, if_pos hop] at hmem
    rw [mem_singleton.mp hmem]
    exact gatherFact_holds hsound
  · intro hop k fact hk
    have hne : ¬(node.opType = "Gather" ∨ node.opType = "GatherElements") := by
      rw [hop]
      decide
    rw [nodeFacts, if_neg hne, if_pos hop] at hk
    exact sliceFacts_hold hsound hk

def pairTensor : Tensor := ⟨[2], [10, 20], rfl⟩

def startTensor : Tensor := ⟨[1], [-5], by decide⟩

def noIndices : Tensor := ⟨[0], [], rfl⟩

def upToThree : Dim := ⟨0, some 3, none, by simp⟩

def knownTensors (name : String) : Option Enclosure :=
  if name = "x" then some (.static (pairTensor.map fin) (pairTensor.map fin))
  else if name = "s" then some (.static (startTensor.map fin) (startTensor.map fin))
  else if name = "i" then some (.ranged [upToThree] (fin 7, fin 9))
  else none

def someRun (name : String) : Option Tensor :=
  if name = "x" then some pairTensor
  else if name = "s" then some startTensor
  else if name = "i" then some noIndices
  else none

def gatherNode : IndexNode := ⟨"Gather", none, ["x", "i"], ["g"]⟩

def sliceNode : IndexNode := ⟨"Slice", none, ["x", "s", "e"], ["y"]⟩

theorem knownTensors_sound : Sound knownTensors someRun := by
  intro name e h
  unfold knownTensors at h
  unfold someRun
  by_cases hx : name = "x"
  · rw [if_pos hx] at h ⊢
    obtain rfl := Option.some.inj h
    exact ⟨_, rfl, encloses_point _⟩
  · rw [if_neg hx] at h ⊢
    by_cases hs : name = "s"
    · rw [if_pos hs] at h ⊢
      obtain rfl := Option.some.inj h
      exact ⟨_, rfl, encloses_point _⟩
    · rw [if_neg hs] at h ⊢
      by_cases hi : name = "i"
      · rw [if_pos hi] at h ⊢
        obtain rfl := Option.some.inj h
        refine ⟨_, rfl, .cons rfl .nil, ?_⟩
        simp [noIndices]
      · rw [if_neg hi] at h
        cases h

/-- A start below the axis is clamped to its first place, and a `Gather` without indices does not fail. -/
theorem outside_facts_mislead :
    Sound knownTensors someRun ∧
      (nodeFacts (fun _ => "") knownTensors sliceNode).map IndexFact.verdict = [.outOfRange] ∧
      onnxLength 2 (-5) 2 1 ≠ 0 ∧
      (nodeFacts (fun _ => "") knownTensors gatherNode).map IndexFact.verdict = [.outOfRange] ∧
      ∀ v ∈ noIndices.data, Valid 2 v := by
  refine ⟨knownTensors_sound, ?_, ?_, ?_, ?_⟩
  · decide +kernel
  · rw [onnxLength_eq (by decide) (by decide)]
    decide
  · decide +kernel
  · simp [noIndices]

theorem slice_fact_of_run :
    ∃ fact, (nodeFacts (fun _ => "") knownTensors sliceNode)[0]? = some fact ∧ SliceHolds sliceNode 0 fact someRun :=
  ⟨_, rfl, (index_facts_exact knownTensors_sound).2 rfl 0 _ rfl⟩

end Onnxsim.Overflow.IndexFacts
