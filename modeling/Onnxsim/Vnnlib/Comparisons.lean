import Onnxsim.Vnnlib.Boxes

namespace Onnxsim.Vnnlib.Meaning

open Text Linear Clauses

mutual

def satisfies (cmp : String → List SExpr → Bool) : SExpr → Bool
  | .list (.atom head :: args) =>
    if head = "and" then allSatisfied cmp args
    else if head = "or" then anySatisfied cmp args
    else cmp head args
  | _ => false

def allSatisfied (cmp : String → List SExpr → Bool) : List SExpr → Bool
  | [] => true
  | f :: fs => satisfies cmp f && allSatisfied cmp fs

def anySatisfied (cmp : String → List SExpr → Bool) : List SExpr → Bool
  | [] => false
  | f :: fs => satisfies cmp f || anySatisfied cmp fs

end

def compareValues (head : String) (u v : ℚ) : Bool :=
  if head = "<=" then u ≤ v
  else if head = "<" then u < v
  else if head = ">=" then v ≤ u
  else if head = ">" then v < u
  else if head = "=" then u = v
  else false

def compares (p : Point) (head : String) : List SExpr → Bool
  | [a, b] =>
    match evalExpr p a, evalExpr p b with
    | some u, some v => compareValues head u v
    | _, _ => false
  | _ => false

def assertion? : SExpr → Option SExpr
  | .list [.atom head, f] => if head = "assert" then some f else none
  | _ => none

def asserted (text : String) : List SExpr :=
  match sexprs (tokenize text) with
  | .ok forms => forms.filterMap assertion?
  | .error _ => []

def holds (p : Point) (text : String) : Bool := allSatisfied (compares p) (asserted text)

def relax (head : String) : String := if head = "<" then "<=" else if head = ">" then ">=" else head

def boundsInput (a b : SExpr) : Bool :=
  match difference a b with
  | .ok d => hasKind .X d && !hasKind .Y d
  | .error _ => false

/-- Comparisons as before, but a strict bound on an input also allows the bound itself. -/
def relaxedCompares (p : Point) (head : String) : List SExpr → Bool
  | [a, b] => compares p (if boundsInput a b then relax head else head) [a, b]
  | args => compares p head args

/-- The point satisfies every asserted formula once the strict bounds on inputs allow equality. -/
def holdsRelaxed (p : Point) (text : String) : Bool := allSatisfied (relaxedCompares p) (asserted text)

mutual

theorem satisfies_mono {cmp cmp' : String → List SExpr → Bool}
    (h : ∀ head args, cmp head args = true → cmp' head args = true) :
    (e : SExpr) → satisfies cmp e = true → satisfies cmp' e = true
  | .atom _, he => he
  | .list [], he => he
  | .list (.list _ :: _), he => he
  | .list (.atom head :: args), he => by
    rw [satisfies] at he ⊢
    split at he
    · next hand =>
      rw [if_pos hand]
      exact allSatisfied_mono h args he
    · next hand =>
      rw [if_neg hand]
      split at he
      · next hor =>
        rw [if_pos hor]
        exact anySatisfied_mono h args he
      · next hor =>
        rw [if_neg hor]
        exact h head args he

theorem allSatisfied_mono {cmp cmp' : String → List SExpr → Bool}
    (h : ∀ head args, cmp head args = true → cmp' head args = true) :
    (fs : List SExpr) → allSatisfied cmp fs = true → allSatisfied cmp' fs = true
  | [], _ => rfl
  | f :: fs, hfs => by
    rw [allSatisfied, Bool.and_eq_true] at hfs ⊢
    exact ⟨satisfies_mono h f hfs.1, allSatisfied_mono h fs hfs.2⟩

theorem anySatisfied_mono {cmp cmp' : String → List SExpr → Bool}
    (h : ∀ head args, cmp head args = true → cmp' head args = true) :
    (fs : List SExpr) → anySatisfied cmp fs = true → anySatisfied cmp' fs = true
  | [], hfs => hfs
  | f :: fs, hfs => by
    rw [anySatisfied, Bool.or_eq_true] at hfs ⊢
    exact hfs.imp (satisfies_mono h f) (anySatisfied_mono h fs)

end

variable {head : String} {p : Point}

theorem compareValues_relax {u v : ℚ} (h : compareValues head u v = true) :
    compareValues (relax head) u v = true := by
  rw [relax]
  split
  · next hlt =>
    subst hlt
    have huv : u < v := by simpa [compareValues] using h
    simpa [compareValues] using huv.le
  · split
    · next hgt =>
      subst hgt
      have huv : v < u := by simpa [compareValues] using h
      simpa [compareValues] using huv.le
    · exact h

theorem compares_relax {args : List SExpr} (h : compares p head args = true) : compares p (relax head) args = true := by
  match args, h with
  | [a, b], h =>
    rw [compares] at h ⊢
    cases hu : evalExpr p a with
    | none => simp [hu] at h
    | some u =>
      cases hv : evalExpr p b with
      | none => simp [hu, hv] at h
      | some v =>
        simp only [hu, hv] at h ⊢
        exact compareValues_relax h
  | [], h => cases h
  | [_], h => cases h
  | _ :: _ :: _ :: _, h => cases h

theorem relaxedCompares_of_compares (p : Point) (head : String) (args : List SExpr)
    (h : compares p head args = true) : relaxedCompares p head args = true := by
  match args, h with
  | [a, b], h =>
    rw [relaxedCompares]
    split
    · exact compares_relax h
    · exact h
  | [], h => cases h
  | [_], h => cases h
  | _ :: _ :: _ :: _, h => cases h

theorem holdsRelaxed_of_holds {text : String} (h : holds p text = true) : holdsRelaxed p text = true := allSatisfied_mono (relaxedCompares_of_compares p) _ h

end Onnxsim.Vnnlib.Meaning

namespace Onnxsim.Vnnlib.Comparisons

open List Lib.Dicts Lib.Results
open Text Linear Clauses
open Boxes Meaning

variable {d : Lin} {head : String} {u v : ℚ}

section

variable {b : SExpr} {a : Piece} {k : VarKind} {box out : Dict Nat Bounds}

theorem value_difference (p : Point) {a : SExpr} (h : difference a b = .ok d) :
    ∃ u v, evalExpr p a = some u ∧ evalExpr p b = some v ∧ d.value p = u - v := by
  obtain ⟨l, hl, h⟩ := bind_eq_ok h
  obtain ⟨r, hr, h⟩ := bind_eq_ok h
  cases h
  refine ⟨l.value p, r.value p, value_lin p a hl, value_lin p b hr, ?_⟩
  have hfilter : linear p ((subLin l r).coefs.filterVals fun x => decide (x ≠ 0)) =
      linear p (subLin l r).coefs := by
    apply Dict.total_filterVals
    intro v x hx
    have hzero : x = 0 := by simpa using hx
    rw [hzero, map_zero]
  rw [Lin.value, hfilter, ← Lin.value, value_subLin]

theorem difference_ne_zero {a : SExpr} (h : difference a b = .ok d) : ∀ e ∈ d.coefs.entries, e.2 ≠ 0 := by
  obtain ⟨l, hl, h⟩ := bind_eq_ok h
  obtain ⟨r, hr, h⟩ := bind_eq_ok h
  cases h
  intro e he
  simpa using (mem_filter.mp he).2

theorem comparison_cases (h : isComparison head = true) :
    head = "<=" ∨ head = "<" ∨ head = ">=" ∨ head = ">" ∨ head = "=" := by simpa [isComparison] using h

theorem pieces_hold (p : Point) (hhead : isComparison head = true) (hd : d.value p = u - v) :
    (pieces head d).all (pieceHolds p) = compareValues head u v := by
  have hn : (negLin d).value p = v - u := by rw [value_negLin, hd, neg_sub]
  rcases comparison_cases hhead with rfl | rfl | rfl | rfl | rfl
  · simp [pieces, compareValues, pieceHolds, belowZero, hd]
  · simp [pieces, compareValues, pieceHolds, belowZero, hd]
  · simp [pieces, compareValues, pieceHolds, belowZero, hn]
  · simp [pieces, compareValues, pieceHolds, belowZero, hn]
  · rw [Bool.eq_iff_iff]
    simp [pieces, compareValues, pieceHolds, belowZero, hd, hn, ← le_antisymm_iff]

theorem relax_pieces (p : Point) (hhead : isComparison head = true) (hd : d.value p = u - v) :
    (pieces head d).all (fun a => decide (a.lin.value p ≤ 0)) = compareValues (relax head) u v := by
  have hn : (negLin d).value p = v - u := by rw [value_negLin, hd, neg_sub]
  rcases comparison_cases hhead with rfl | rfl | rfl | rfl | rfl
  · simp [pieces, compareValues, relax, hd]
  · simp [pieces, compareValues, relax, hd]
  · simp [pieces, compareValues, relax, hn]
  · simp [pieces, compareValues, relax, hn]
  · rw [Bool.eq_iff_iff]
    simp [pieces, compareValues, relax, hd, hn, ← le_antisymm_iff]

theorem keys_piece (h : a ∈ pieces head d) : a.lin = d ∨ a.lin = negLin d := by
  rw [pieces] at h
  split at h
  · exact .inl (congrArg Piece.lin (mem_singleton.mp h))
  · split at h
    · exact .inr (congrArg Piece.lin (mem_singleton.mp h))
    · rcases mem_pair.mp h with rfl | rfl
      · exact .inl rfl
      · exact .inr rfl

/-- Every variable of the normal form is of the kind, and no coefficient is zero. -/
def OnlyKind (k : VarKind) (d : Lin) : Prop := ∀ e ∈ d.coefs.entries, e.1.1 = k ∧ e.2 ≠ 0

theorem OnlyKind.neg (h : OnlyKind k d) : OnlyKind k (negLin d) := by
  intro e he
  obtain ⟨f, hf, rfl⟩ := List.mem_map.mp he
  exact ⟨(h f hf).1, neg_ne_zero.mpr (h f hf).2⟩

theorem OnlyKind.piece (h : OnlyKind k d) (ha : a ∈ pieces head d) : OnlyKind k a.lin := by
  rcases keys_piece ha with ha | ha
  · rw [ha]
    exact h
  · rw [ha]
    exact h.neg

theorem onlyKind_of_not_hasKind {j : VarKind} (hjk : ∀ i : VarKind, i = j ∨ i = k)
    (hne : ∀ e ∈ d.coefs.entries, e.2 ≠ 0) (h : hasKind j d = false) : OnlyKind k d := by
  intro e he
  refine ⟨?_, hne e he⟩
  have hej : ¬ e.1.1 = j := by simpa using List.any_eq_false.mp h e he
  exact (hjk e.1.1).resolve_left hej

theorem inBox_addInputPiece (p : Point) (ha : OnlyKind .X a.lin) (h : addInputPiece box a = .ok out) :
    inBox p out = (inBox p box && decide (a.lin.value p ≤ 0)) := by
  rw [addInputPiece] at h
  split at h
  · next e he =>
    cases h
    obtain ⟨hk, hne⟩ := ha e (by rw [he]; exact mem_singleton_self e)
    have hvalue : a.lin.value p = p.x e.1.2 * e.2 + a.lin.const := by
      rw [Lin.value, linear, Dict.total, he]
      simp only [map_cons, map_nil, sum_cons, sum_nil, add_zero, term_apply,
        Point.at, hk]
      rw [mul_comm]
    rw [inBox_addBound, contains_boundOf hne, hvalue]
  · cases h

theorem inBox_foldlM (p : Point) {l : List Piece} (hl : ∀ a ∈ l, OnlyKind .X a.lin)
    (h : l.foldlM addInputPiece box = .ok out) :
    inBox p out = (inBox p box && l.all fun a => decide (a.lin.value p ≤ 0)) := by
  induction l generalizing box with
  | nil =>
    cases h
    simp
  | cons a l ih =>
    obtain ⟨ha, hl⟩ := forall_mem_cons.mp hl
    rw [foldlM_cons] at h
    obtain ⟨mid, hmid, h⟩ := bind_eq_ok h
    rw [ih hl h, inBox_addInputPiece p ha hmid, all_cons, Bool.and_assoc]

theorem value_outputPiece (p : Point) (ha : OnlyKind .Y a.lin) : outputValue p (outputPiece a) = a.lin.value p := by
  have hinj : ((a.lin.coefs.entries.map fun e => (e.1.2, e.2)).map Prod.fst).Nodup := by
    have hnd := a.lin.coefs.nodup
    rw [List.map_map]
    apply List.Nodup.map_on _ (List.Nodup.of_map _ hnd)
    intro e he f hf hef
    have hkey : e.1 = f.1 := Prod.ext ((ha e he).1.trans (ha f hf).1.symm) hef
    exact inj_on_of_nodup_map hnd he hf hkey
  have hentries := Dict.entries_setAll (d := Dict.empty) (l := a.lin.coefs.entries.map fun e => (e.1.2, e.2)) (by simpa using hinj)
  rw [outputValue, outputPiece, Dict.total, hentries, Lin.value, linear, Dict.total, Dict.entries_empty,
    nil_append, List.map_map]
  congr 2
  apply map_congr_left
  intro e he
  simp [Point.at, (ha e he).1]

end

theorem value_of_no_kind (p : Point) (hx : hasKind .X d = false) (hy : hasKind .Y d = false) :
    d.value p = d.const := by
  have hnil : d.coefs.entries = [] := by
    rw [eq_nil_iff_forall_not_mem]
    intro e he
    have hex : ¬ e.1.1 = .X := by simpa using List.any_eq_false.mp hx e he
    have hey : ¬ e.1.1 = .Y := by simpa using List.any_eq_false.mp hy e he
    cases hk : e.1.1 with
    | X => exact hex hk
    | Y => exact hey hk
  rw [Lin.value, linear_of_entries_nil p hnil, zero_add]

theorem decided_eq (p : Point) (hx : hasKind .X d = false) (hy : hasKind .Y d = false) :
    (pieces head d).all Piece.decided = (pieces head d).all (pieceHolds p) := by
  have hconst (a : Piece) (ha : a ∈ pieces head d) : a.lin.value p = a.lin.const := by
    rcases keys_piece ha with ha | ha
    · rw [ha, value_of_no_kind p hx hy]
    · rw [ha, value_negLin, value_of_no_kind p hx hy, negLin]
  rw [Bool.eq_iff_iff, List.all_eq_true, List.all_eq_true]
  apply forall₂_congr
  intro a ha
  rw [Piece.decided, pieceHolds, belowZero, hconst a ha]

theorem onlyKind_X (hne : ∀ e ∈ d.coefs.entries, e.2 ≠ 0) (h : hasKind .Y d = false) : OnlyKind .X d := onlyKind_of_not_hasKind (fun i => by cases i <;> simp) hne h

theorem onlyKind_Y (hne : ∀ e ∈ d.coefs.entries, e.2 ≠ 0) (h : hasKind .X d = false) : OnlyKind .Y d := onlyKind_of_not_hasKind (fun i => by cases i <;> simp) hne h

variable {cs : List Clauseish}

theorem clausesOf_holds (p : Point) (hhead : isComparison head = true) (hne : ∀ e ∈ d.coefs.entries, e.2 ≠ 0)
    (hvalue : d.value p = u - v) (h : clausesOf head d = .ok cs) :
    cs.any (clauseHolds p) =
      compareValues (if hasKind .X d && !hasKind .Y d then relax head else head) u v := by
  rw [clausesOf] at h
  cases hx : hasKind .X d with
  | false =>
    rw [Bool.false_and, if_neg Bool.false_ne_true, ← pieces_hold p hhead hvalue]
    cases hy : hasKind .Y d with
    | false =>
      rw [hx, hy] at h
      cases h
      rw [← decided_eq p hx hy]
      cases (pieces head d).all Piece.decided <;> rfl
    | true =>
      rw [hx, hy] at h
      cases h
      have hone : [(⟨.empty, (pieces head d).map outputPiece⟩ : Clauseish)].any (clauseHolds p) =
          ((pieces head d).map outputPiece).all fun a => belowZero a.strict (outputValue p a) := by
        rw [any_cons, any_nil, Bool.or_false, clauseHolds, inBox_empty, Bool.true_and]
      rw [hone, List.all_map, Bool.eq_iff_iff, List.all_eq_true, List.all_eq_true]
      apply forall₂_congr
      intro a ha
      rw [Function.comp_apply, value_outputPiece p ((onlyKind_Y hne hx).piece ha)]
      rfl
  | true =>
    cases hy : hasKind .Y d with
    | false =>
      rw [hx, hy] at h
      obtain ⟨box, hbox, h⟩ := bind_eq_ok h
      cases h
      have hone : [(⟨box, []⟩ : Clauseish)].any (clauseHolds p) = inBox p box := by
        rw [any_cons, any_nil, Bool.or_false, clauseHolds, all_nil, Bool.and_true]
      rw [hone, inBox_foldlM p (fun a ha => (onlyKind_X hne hy).piece ha) hbox, inBox_empty, Bool.true_and]
      exact relax_pieces p hhead hvalue
    | true =>
      rw [hx, hy] at h
      cases h

theorem comparison_holds (p : Point) (hhead : isComparison head = true) {args : List SExpr}
    (h : comparison head args = .ok cs) :
    cs.any (clauseHolds p) = relaxedCompares p head args := by
  match args, h with
  | [a, b], h =>
    obtain ⟨d, hd, h⟩ := bind_eq_ok h
    obtain ⟨u, v, hu, hv, hvalue⟩ := value_difference p hd
    rw [clausesOf_holds p hhead (difference_ne_zero hd) hvalue h, relaxedCompares, boundsInput, hd, compares,
      hu, hv]
  | [], h => cases h
  | [_], h => cases h
  | _ :: _ :: _ :: _, h => cases h

mutual

/-- Some clause of the normal form holds of a point exactly if the formula does, its strict bounds on
inputs relaxed. -/
theorem atomsOf_holds (p : Point) : (e : SExpr) → {cs : List Clauseish} → atomsOf e = .ok cs →
    cs.any (clauseHolds p) = satisfies (relaxedCompares p) e
  | .atom _, cs, h => by cases h
  | .list [], cs, h => by cases h
  | .list (.list _ :: _), cs, h => by cases h
  | .list (.atom head :: args), cs, h => by
    rw [atomsOf] at h
    rw [satisfies]
    split at h
    · next hand =>
      have htrivial : [trivialClause].any (clauseHolds p) = true := rfl
      rw [if_pos hand, conjunction_holds p args h, htrivial, Bool.true_and]
    · next hand =>
      rw [if_neg hand]
      split at h
      · next hor =>
        obtain ⟨out, hout, h⟩ := bind_eq_ok h
        split at h
        · cases h
        · cases h
          rw [if_pos hor, disjunction_holds p args hout]
          rfl
      · next hor =>
        rw [if_neg hor]
        split at h
        · next hhead => exact comparison_holds p hhead h
        · cases h

theorem conjunction_holds (p : Point) : (args : List SExpr) → {cs out : List Clauseish} →
    conjunction cs args = .ok out →
      out.any (clauseHolds p) = (cs.any (clauseHolds p) && allSatisfied (relaxedCompares p) args)
  | [], cs, out, h => by
    cases h
    rw [allSatisfied, Bool.and_true]
  | a :: rest, cs, out, h => by
    rw [conjunction] at h
    obtain ⟨sub, hsub, h⟩ := bind_eq_ok h
    dsimp only at h
    split at h
    · cases h
    · rw [conjunction_holds p rest h, any_merge, atomsOf_holds p a hsub, allSatisfied, Bool.and_assoc]

theorem disjunction_holds (p : Point) : (args : List SExpr) → {cs out : List Clauseish} →
    disjunction cs args = .ok out →
      out.any (clauseHolds p) = (cs.any (clauseHolds p) || anySatisfied (relaxedCompares p) args)
  | [], cs, out, h => by
    cases h
    rw [anySatisfied, Bool.or_false]
  | a :: rest, cs, out, h => by
    rw [disjunction] at h
    obtain ⟨sub, hsub, h⟩ := bind_eq_ok h
    rw [disjunction_holds p rest h, any_append, atomsOf_holds p a hsub, anySatisfied, Bool.or_assoc]

end

end Onnxsim.Vnnlib.Comparisons
