import Onnxsim.Vnnlib.Comparisons

namespace Onnxsim.Vnnlib.Parsing

open List Option Lib.Dicts Lib.Results
open Text Linear Clauses
open Boxes Meaning Comparisons

variable {n ny nx : Nat} {box : Dict Nat Bounds} {bounds : List Bounds} {s t : Preamble}

theorem dot_scatter (p : Point) {d : Dict Nat ℚ} {cs : List ℚ} (h : d.scatter n 0 = .ok cs) :
    dot cs p.y = d.total fun j x => x * p.y j := by
  have hcs := Dict.scatter_eq h
  have hlen : cs.length = n := by rw [hcs, length_map, length_range]
  have hsum : dot cs p.y = ∑ j ∈ Finset.range n, cs.getD j 0 * p.y j := by
    rw [dot, hlen]
    rfl
  rw [hsum, ← Dict.sum_get? (fun j x => x * p.y j) (Dict.scatter_keys h)]
  apply Finset.sum_congr rfl
  intro j hj
  have hget : cs.getD j 0 = (d.get? j).getD 0 := by
    rw [hcs, getD_eq_getElem?_getD, getElem?_map, getElem?_range (Finset.mem_range.mp hj)]
    rfl
  rw [hget]
  cases d.get? j with
  | none => exact zero_mul _
  | some x => rfl

theorem finishAtom_holds (p : Point) {a : OutputPiece} {out : YAtom} (h : finishAtom ny a = .ok out) :
    out.holds p.y = belowZero a.strict (outputValue p a) := by
  rw [finishAtom] at h
  split at h
  · next cs hcs =>
    cases h
    rw [YAtom.holds, belowZero, outputValue, dot_scatter p hcs]
    simp only [lt_neg_iff_add_neg, le_neg_iff_add_nonpos_right]
  · cases h

theorem all_finishAtom (p : Point) {as : List OutputPiece} {out : List YAtom} (h : as.mapM (finishAtom ny) = .ok out) :
    out.all (fun a => a.holds p.y) = as.all fun a => belowZero a.strict (outputValue p a) := by
  have hall : List.Forall₂ (fun a b => finishAtom ny a = .ok b) as out := mapM_eq_ok h
  clear h
  induction hall with
  | nil => rfl
  | cons hfirst hrest ih => rw [all_cons, all_cons, ih, finishAtom_holds p hfirst]

theorem all_zipIdx_range {V : Type} (n : Nat) (g : Nat → V) (f : V × Nat → Bool) :
    ((List.range n).map g).zipIdx.all f = true ↔ ∀ i < n, f (g i, i) = true := by
  have hzip : ((List.range n).map g).zipIdx = (List.range n).map fun i => (g i, i) :=
    ext_getElem (by simp) (by simp)
  simp [hzip]

theorem box_scatter (p : Point) (h : box.scatter n .all = .ok bounds) :
    ((bounds.map Bounds.lo).zipIdx.all (fun e => decide (e.1 ≤ Bound.of (p.x e.2))) &&
      (bounds.map Bounds.hi).zipIdx.all fun e => decide (Bound.of (p.x e.2) ≤ e.1)) = inBox p box := by
  have hkeys := Dict.scatter_keys h
  rw [Dict.scatter_eq h, List.map_map, List.map_map, Bool.eq_iff_iff, Bool.and_eq_true, all_zipIdx_range,
    all_zipIdx_range, inBox_iff]
  constructor
  · rintro ⟨hlo, hhi⟩ i b hb
    have hi : i < n := hkeys (i, b) (Dict.get?_eq_some_iff.mp hb)
    have hlo := hlo i hi
    have hhi := hhi i hi
    rw [Function.comp_apply, hb] at hlo hhi
    rw [Bounds.contains, Bool.and_eq_true]
    exact ⟨hlo, hhi⟩
  · intro hbox
    have hall (i : Nat) : ((box.get? i).getD .all).contains (p.x i) = true := by
      cases hi : box.get? i with
      | none => exact contains_all _
      | some b => exact hbox i b hi
    exact ⟨fun i _ => (Bool.and_eq_true_iff.mp (hall i)).1, fun i _ => (Bool.and_eq_true_iff.mp (hall i)).2⟩

theorem not_inBox_of_empty (p : Point) (h : box.scatter n .all = .ok bounds)
    (hempty : bounds.any (fun b => decide (b.hi < b.lo)) = true) :
    inBox p box = false := by
  obtain ⟨b, hb, hlt⟩ := List.any_eq_true.mp hempty
  rw [Dict.scatter_eq h] at hb
  obtain ⟨i, hi, rfl⟩ := List.mem_map.mp hb
  rw [Bool.eq_false_iff]
  intro hbox
  have hcontains : ((box.get? i).getD .all).contains (p.x i) = true := by
    cases hget : box.get? i with
    | none => exact contains_all _
    | some b => exact (inBox_iff p box).mp hbox i b hget
  rw [Bounds.contains, Bool.and_eq_true, decide_eq_true_eq, decide_eq_true_eq] at hcontains
  exact absurd (hcontains.1.trans hcontains.2) (not_le.mpr (by simpa using hlt))

theorem finishClause_holds (p : Point) {c : Clauseish} {out : Option Clause} (h : finishClause nx ny c = .ok out) :
    (out.elim false fun k => k.holds p) = clauseHolds p c := by
  rw [finishClause] at h
  split at h
  · cases h
  · next bounds hbounds =>
    split at h
    · next hempty =>
      cases h
      rw [clauseHolds, not_inBox_of_empty p hbounds hempty, Bool.false_and]
      rfl
    · obtain ⟨atoms, hatoms, h⟩ := bind_eq_ok h
      cases h
      rw [elim_some, Clause.holds, box_scatter p hbounds, all_finishAtom p hatoms, clauseHolds]

theorem any_finishClause (p : Point) {cs : List Clauseish} {out : List (Option Clause)}
    (h : cs.mapM (finishClause nx ny) = .ok out) :
    (out.filterMap id).any (fun k => k.holds p) = cs.any (clauseHolds p) := by
  have hall : List.Forall₂ (fun c k => finishClause nx ny c = .ok k) cs out := mapM_eq_ok h
  clear h
  induction hall with
  | nil => rfl
  | @cons c k cs out hfirst hrest ih =>
    rw [any_cons, ← finishClause_holds p hfirst, ← ih]
    cases k <;> rfl

theorem formula_declareConst {args : List SExpr} (h : declareConst s args = .ok t) : t.formula = s.formula := by
  unfold declareConst at h
  split at h
  · split at h
    · cases h
    · split at h
      · cases h
        rfl
      · cases h
        rfl
      · cases h
  · cases h
  · cases h

theorem formula_topLevel {form : SExpr} (h : topLevel s form = .ok t) :
    t.formula = s.formula ++ (assertion? form).toList := by
  unfold topLevel at h
  split at h
  · next head args =>
    split at h
    · next hdeclare =>
      have hnone : assertion? (.list (.atom head :: args)) = none := by
        match args with
        | [] => rfl
        | [f] => rw [assertion?, if_neg (by simp [hdeclare])]
        | _ :: _ :: _ => rfl
      rw [hnone, formula_declareConst h, toList_none, append_nil]
    · split at h
      · next hassert =>
        match args, h with
        | [f], h =>
          cases h
          rw [assertion?, if_pos hassert, toList_some]
        | [], h => cases h
        | _ :: _ :: _, h => cases h
      · cases h
  · cases h
  · cases h

theorem formula_foldlM {forms : List SExpr} (h : forms.foldlM topLevel s = .ok t) :
    t.formula = s.formula ++ forms.filterMap assertion? := by
  induction forms generalizing s with
  | nil =>
    cases h
    rw [filterMap_nil, append_nil]
  | cons form forms ih =>
    rw [foldlM_cons] at h
    obtain ⟨mid, hmid, h⟩ := bind_eq_ok h
    rw [ih h, formula_topLevel hmid, append_assoc, filterMap_cons]
    cases assertion? form <;> rfl

/-- The clauses of an accepted text hold of a point exactly if its formulas do, their strict bounds on
inputs relaxed. -/
theorem violatedBy_eq_holdsRelaxed {text : String} {prop : Property} (h : parse text = .ok prop)
    (p : Point) : prop.violatedBy p = holdsRelaxed p text := by
  obtain ⟨forms, hforms, h⟩ := bind_eq_ok h
  obtain ⟨s, hs, h⟩ := bind_eq_ok h
  split at h
  · cases h
  · obtain ⟨clauses, hclauses, h⟩ := bind_eq_ok h
    obtain ⟨out, hout, h⟩ := bind_eq_ok h
    cases h
    have hformula : s.formula = asserted text := by
      rw [formula_foldlM hs, asserted, hforms, nil_append]
    rw [Property.violatedBy, any_finishClause p hout, atomsOf_holds p _ hclauses, satisfies, if_pos rfl,
      hformula, holdsRelaxed]

/-- Parsing preserves the meaning at a point exactly if the point does not owe its place in the region
to a strict bound on an input that it sits on. -/
theorem violatedBy_eq_holds_iff {text : String} {prop : Property} (h : parse text = .ok prop)
    (p : Point) :
    prop.violatedBy p = holds p text ↔ (holdsRelaxed p text = true → holds p text = true) := by
  rw [violatedBy_eq_holdsRelaxed h p]
  constructor
  · intro heq hr
    rw [← heq, hr]
  · intro hr
    rw [Bool.eq_iff_iff]
    exact ⟨hr, holdsRelaxed_of_holds⟩

def strictText : String := "(declare-const X_0 Real) (declare-const Y_0 Real) (assert (< X_0 1))"

theorem strictText_accepted : ∃ prop, parse strictText = .ok prop := by
  cases h : parse strictText with
  | ok prop => exact ⟨prop, rfl⟩
  | error e =>
    have hok : (parse strictText).isOk = true := by decide +kernel
    rw [h] at hok
    cases hok

theorem violatedBy_eq_holds_origin : ∃ prop, parse strictText = .ok prop ∧
    prop.violatedBy ⟨fun _ => 0, fun _ => 0⟩ = holds ⟨fun _ => 0, fun _ => 0⟩ strictText := by
  obtain ⟨prop, h⟩ := strictText_accepted
  refine ⟨prop, h, (violatedBy_eq_holds_iff h _).mpr fun _ => ?_⟩
  decide +kernel

/-- The point one satisfies the parsed property, and not the text. -/
theorem strict_bound_lost : ¬ ∀ text prop, parse text = .ok prop → ∀ p : Point,
    prop.violatedBy p = true ↔ holds p text = true := by
  intro hall
  obtain ⟨prop, h⟩ := strictText_accepted
  have hviolated : prop.violatedBy ⟨fun _ => 1, fun _ => 0⟩ = true := by
    rw [violatedBy_eq_holdsRelaxed h]
    decide +kernel
  have hholds := (hall strictText prop h _).mp hviolated
  have hnot : holds ⟨fun _ => 1, fun _ => 0⟩ strictText = false := by decide +kernel
  rw [hnot] at hholds
  cases hholds

end Onnxsim.Vnnlib.Parsing
