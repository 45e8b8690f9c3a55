import Mathlib.Algebra.Order.Field.Basic
import Mathlib.Tactic.Linarith
import Onnxsim.Vnnlib.Linear

namespace Onnxsim.Vnnlib.Clauses

open Lib.Dicts Text Linear

/-- An end of an interval: a number or one of the infinities. -/
abbrev Bound := WithBot (WithTop ℚ)

def Bound.of (q : ℚ) : Bound := ((q : WithTop ℚ) : WithBot (WithTop ℚ))

structure Bounds where
  lo : Bound
  hi : Bound

def Bounds.all : Bounds := ⟨⊥, ⊤⟩

def Bounds.meet (b c : Bounds) : Bounds := ⟨max b.lo c.lo, min b.hi c.hi⟩

def Bounds.contains (b : Bounds) (q : ℚ) : Bool := b.lo ≤ Bound.of q && Bound.of q ≤ b.hi

def addBound (box : Dict Nat Bounds) (i : Nat) (b : Bounds) : Dict Nat Bounds :=
  box.set i (((box.get? i).getD .all).meet b)

def mergeBox (box other : Dict Nat Bounds) : Dict Nat Bounds :=
  other.entries.foldl (fun box e => addBound box e.1 e.2) box

/-- An output constraint `coefs . Y + const <= 0`. -/
structure OutputPiece where
  coefs : Dict Nat ℚ
  const : ℚ
  strict : Bool

structure Clauseish where
  box : Dict Nat Bounds
  atoms : List OutputPiece

def maxClauses : Nat := 200000

def trivialClause : Clauseish := ⟨.empty, []⟩

def merge (c d : Clauseish) : Clauseish := ⟨mergeBox c.box d.box, c.atoms ++ d.atoms⟩

/-- The sides of a comparison as one linear expression, without the variables that cancel. -/
def difference (a b : SExpr) : Except VnnlibError Lin := do
  let l ← lin a
  let r ← lin b
  .ok ⟨(subLin l r).coefs.filterVals fun x => x ≠ 0, (subLin l r).const⟩

/-- A normal form that is to be at most zero, or below zero. -/
structure Piece where
  lin : Lin
  strict : Bool

def pieces (head : String) (d : Lin) : List Piece :=
  if head = "<=" ∨ head = "<" then [⟨d, head = "<"⟩]
  else if head = ">=" ∨ head = ">" then [⟨negLin d, head = ">"⟩]
  else [⟨d, false⟩, ⟨negLin d, false⟩]

def Piece.decided (p : Piece) : Bool := if p.strict then p.lin.const < 0 else p.lin.const ≤ 0

def hasKind (k : VarKind) (d : Lin) : Bool := d.coefs.entries.any fun e => e.1.1 = k

/-- What `cf * x + pk <= 0` says about `x`. -/
def boundOf (cf pk : ℚ) : Bounds := if 0 < cf then ⟨⊥, Bound.of (-pk / cf)⟩ else ⟨Bound.of (-pk / cf), ⊤⟩

def addInputPiece (box : Dict Nat Bounds) (p : Piece) : Except VnnlibError (Dict Nat Bounds) :=
  match p.lin.coefs.entries with
  | [e] => .ok (addBound box e.1.2 (boundOf e.2 p.lin.const))
  | _ => .error .severalInputs

def outputPiece (p : Piece) : OutputPiece :=
  ⟨Dict.empty.setAll (p.lin.coefs.entries.map fun e => (e.1.2, e.2)), p.lin.const, p.strict⟩

def isComparison (head : String) : Bool := head ∈ ["<=", "<", ">=", ">", "="]

def clausesOf (head : String) (d : Lin) : Except VnnlibError (List Clauseish) :=
  if !hasKind .X d && !hasKind .Y d then
    .ok (if (pieces head d).all Piece.decided then [trivialClause] else [])
  else if hasKind .X d && hasKind .Y d then .error .mixed
  else if hasKind .X d then do
    let box ← (pieces head d).foldlM addInputPiece .empty
    .ok [⟨box, []⟩]
  else .ok [⟨.empty, (pieces head d).map outputPiece⟩]

def comparison (head : String) : List SExpr → Except VnnlibError (List Clauseish)
  | [a, b] => do
    let d ← difference a b
    clausesOf head d
  | _ => .error (.comparisonOperands head)

mutual

def atomsOf : SExpr → Except VnnlibError (List Clauseish)
  | .atom _ => .error .expectedFormula
  | .list [] => .error .expectedFormula
  | .list (.list _ :: _) => .error .unsupportedFormula
  | .list (.atom head :: args) =>
    if head = "and" then conjunction [trivialClause] args
    else if head = "or" then do
      let out ← disjunction [] args
      if maxClauses < out.length then .error .tooManyClauses else .ok out
    else if isComparison head then comparison head args
    else .error .unsupportedFormula

def conjunction (clauses : List Clauseish) : List SExpr → Except VnnlibError (List Clauseish)
  | [] => .ok clauses
  | a :: rest => do
    let sub ← atomsOf a
    let merged := clauses.flatMap fun c => sub.map (merge c)
    if maxClauses < merged.length then .error .tooManyClauses else conjunction merged rest

def disjunction (out : List Clauseish) : List SExpr → Except VnnlibError (List Clauseish)
  | [] => .ok out
  | a :: rest => do
    let sub ← atomsOf a
    disjunction (out ++ sub) rest

end

/-- One output constraint `a . Y <= b`, or `a . Y < b`. -/
structure YAtom where
  a : List ℚ
  b : ℚ
  strict : Bool

structure Clause where
  lo : List Bound
  hi : List Bound
  atoms : List YAtom

structure Property where
  nInputs : Nat
  nOutputs : Nat
  clauses : List Clause

def dot (a : List ℚ) (y : Nat → ℚ) : ℚ := ((List.range a.length).map fun j => a.getD j 0 * y j).sum

def YAtom.holds (a : YAtom) (y : Nat → ℚ) : Bool := if a.strict then dot a.a y < a.b else dot a.a y ≤ a.b

def Clause.holds (c : Clause) (p : Point) : Bool :=
  c.lo.zipIdx.all (fun e => e.1 ≤ Bound.of (p.x e.2)) &&
    c.hi.zipIdx.all (fun e => Bound.of (p.x e.2) ≤ e.1) && c.atoms.all fun a => a.holds p.y

def Property.violatedBy (prop : Property) (p : Point) : Bool := prop.clauses.any fun c => c.holds p

/-- What the top level forms declare and assert. -/
structure Preamble where
  nx : Nat
  ny : Nat
  formula : List SExpr

def declareConst (s : Preamble) : List SExpr → Except VnnlibError Preamble
  | [.atom v, .atom sort] =>
    if sort ≠ "Real" then .error .declaration
    else
      match readVar v with
      | some (.X, i) => .ok { s with nx := max s.nx (i + 1) }
      | some (.Y, j) => .ok { s with ny := max s.ny (j + 1) }
      | none => .error .notAVariable
  | [.list _, .atom sort] => .error (if sort ≠ "Real" then .declaration else .type)
  | _ => .error .declaration

def assertForm (s : Preamble) : List SExpr → Except VnnlibError Preamble
  | [f] => .ok { s with formula := s.formula ++ [f] }
  | _ => .error .assertOperands

def topLevel (s : Preamble) : SExpr → Except VnnlibError Preamble
  | .list (.atom head :: args) =>
    if head = "declare-const" then declareConst s args
    else if head = "assert" then assertForm s args
    else .error .topLevelForm
  | .list (.list _ :: _) => .error .topLevelForm
  | _ => .error .topLevelToken

def finishAtom (ny : Nat) (a : OutputPiece) : Except VnnlibError YAtom :=
  match a.coefs.scatter ny 0 with
  | .ok cs => .ok ⟨cs, -a.const, a.strict⟩
  | .error j => .error (.undeclaredOutput j)

def finishClause (nx ny : Nat) (c : Clauseish) : Except VnnlibError (Option Clause) :=
  match c.box.scatter nx .all with
  | .error i => .error (.undeclaredInput i)
  | .ok bounds =>
    if bounds.any fun b => b.hi < b.lo then .ok none
    else do
      let atoms ← c.atoms.mapM (finishAtom ny)
      .ok (some ⟨bounds.map Bounds.lo, bounds.map Bounds.hi, atoms⟩)

def parse (text : String) : Except VnnlibError Property := do
  let forms ← sexprs (tokenize text)
  let s ← forms.foldlM topLevel ⟨0, 0, []⟩
  if s.nx = 0 ∨ s.ny = 0 then .error .noInputsOrOutputs
  else
    let clauses ← atomsOf (.list (.atom "and" :: s.formula))
    let out ← clauses.mapM (finishClause s.nx s.ny)
    .ok ⟨s.nx, s.ny, out.filterMap id⟩

end Onnxsim.Vnnlib.Clauses

namespace Onnxsim.Vnnlib.Boxes

open List Lib.Dicts Linear Clauses

theorem bound_of_le {q r : ℚ} : Bound.of q ≤ Bound.of r ↔ q ≤ r := by
  rw [Bound.of, Bound.of, WithBot.coe_le_coe, WithTop.coe_le_coe]

@[simp] theorem contains_all (q : ℚ) : Bounds.all.contains q = true := by
  simp [Bounds.contains, Bounds.all]

theorem contains_meet (b c : Bounds) (q : ℚ) :
    (b.meet c).contains q = (b.contains q && c.contains q) := by
  rw [Bool.eq_iff_iff]
  simp only [Bounds.contains, Bounds.meet, Bool.and_eq_true, decide_eq_true_eq, max_le_iff, le_min_iff]
  exact ⟨fun h => ⟨⟨h.1.1, h.2.1⟩, h.1.2, h.2.2⟩, fun h => ⟨⟨h.1.1, h.2.1⟩, h.1.2, h.2.2⟩⟩

/-- Every input lies between the bounds that the box has for it. -/
def inBox (p : Point) (box : Dict Nat Bounds) : Bool := box.entries.all fun e => e.2.contains (p.x e.1)

@[simp] theorem inBox_empty (p : Point) : inBox p .empty = true := rfl

theorem inBox_iff (p : Point) (box : Dict Nat Bounds) :
    inBox p box = true ↔ ∀ i b, box.get? i = some b → b.contains (p.x i) = true := by
  simp only [inBox, List.all_eq_true, Prod.forall, ← Dict.get?_eq_some_iff]

theorem inBox_addBound (p : Point) (box : Dict Nat Bounds) (i : Nat) (b : Bounds) :
    inBox p (addBound box i b) = (inBox p box && b.contains (p.x i)) := by
  have hold (h : inBox p box = true) : ((box.get? i).getD .all).contains (p.x i) = true := by
    cases hi : box.get? i with
    | none => exact contains_all _
    | some c => exact (inBox_iff p box).mp h i c hi
  rw [Bool.eq_iff_iff, Bool.and_eq_true]
  constructor
  · intro h
    have hnew := (inBox_iff p _).mp h i _ (by rw [addBound, Dict.get?_set, if_pos rfl])
    rw [contains_meet, Bool.and_eq_true] at hnew
    refine ⟨(inBox_iff p box).mpr fun j c hj => ?_, hnew.2⟩
    by_cases hji : j = i
    · subst hji
      simpa [hj] using hnew.1
    · exact (inBox_iff p _).mp h j c (by rw [addBound, Dict.get?_set, if_neg hji, hj])
  · rintro ⟨h, hb⟩
    rw [inBox_iff]
    intro j c hj
    rw [addBound, Dict.get?_set] at hj
    split at hj
    · next hji =>
      cases hj
      rw [contains_meet, Bool.and_eq_true, hji]
      exact ⟨hold h, hb⟩
    · exact (inBox_iff p box).mp h j c hj

theorem inBox_mergeBox (p : Point) (box other : Dict Nat Bounds) :
    inBox p (mergeBox box other) = (inBox p box && inBox p other) := by
  change inBox p (mergeBox box other) =
    (inBox p box && other.entries.all fun e => e.2.contains (p.x e.1))
  rw [mergeBox]
  induction other.entries generalizing box with
  | nil => simp
  | cons e l ih => rw [foldl_cons, ih, inBox_addBound, all_cons, Bool.and_assoc]

theorem contains_boundOf {cf : ℚ} (hcf : cf ≠ 0) (pk q : ℚ) :
    (boundOf cf pk).contains q = decide (q * cf + pk ≤ 0) := by
  rw [Bool.eq_iff_iff, decide_eq_true_eq, boundOf]
  split
  · next hpos =>
    simp only [Bounds.contains, bot_le, decide_true, Bool.true_and, decide_eq_true_eq, bound_of_le]
    rw [le_div_iff₀ hpos]
    constructor <;> intro h <;> linarith
  · next hneg =>
    have hlt : cf < 0 := lt_of_le_of_ne (not_lt.mp hneg) hcf
    simp only [Bounds.contains, le_top, decide_true, Bool.and_true, decide_eq_true_eq, bound_of_le]
    rw [div_le_iff_of_neg hlt]
    constructor <;> intro h <;> linarith

def outputValue (p : Point) (a : OutputPiece) : ℚ := (a.coefs.total fun j x => x * p.y j) + a.const

/-- The value is below zero, or at most zero where that is enough. -/
def belowZero (strict : Bool) (v : ℚ) : Bool := if strict then v < 0 else v ≤ 0

def pieceHolds (p : Point) (a : Piece) : Bool := belowZero a.strict (a.lin.value p)

def clauseHolds (p : Point) (c : Clauseish) : Bool :=
  inBox p c.box && c.atoms.all fun a => belowZero a.strict (outputValue p a)

theorem clauseHolds_merge (p : Point) (c d : Clauseish) :
    clauseHolds p (merge c d) = (clauseHolds p c && clauseHolds p d) := by
  rw [clauseHolds, Clauses.merge, inBox_mergeBox, all_append, clauseHolds, clauseHolds]
  ac_rfl

theorem any_merge (p : Point) (cs ds : List Clauseish) :
    (cs.flatMap fun c => ds.map (merge c)).any (clauseHolds p) =
      (cs.any (clauseHolds p) && ds.any (clauseHolds p)) := by
  have hone (c : Clauseish) : (ds.map (merge c)).any (clauseHolds p) =
      (clauseHolds p c && ds.any (clauseHolds p)) := by
    induction ds with
    | nil => simp
    | cons d ds ih => rw [map_cons, any_cons, ih, clauseHolds_merge, any_cons, Bool.and_or_distrib_left]
  induction cs with
  | nil => rfl
  | cons c cs ih => rw [flatMap_cons, any_append, ih, hone, any_cons, Bool.and_or_distrib_right]

end Onnxsim.Vnnlib.Boxes
