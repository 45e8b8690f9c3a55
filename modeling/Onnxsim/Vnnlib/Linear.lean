import Mathlib.Algebra.Order.Field.Rat
import Mathlib.Tactic.FieldSimp
import Mathlib.Tactic.Ring
import Onnxsim.Lib.Dicts
import Onnxsim.Lib.Results

namespace Onnxsim.Vnnlib.Text

/-- What the reader refuses a text with; `index` and `type` are the interpreter's own errors, for a
missing operand and for a list in place of a name. -/
inductive VnnlibError where
  | unbalancedClose
  | unbalancedOpen
  | unknownSymbol (e : String)
  | emptyExpression
  | nonLinear
  | divisionOperands
  | divisionByNonConstant
  | unsupportedOperator
  | index
  | type
  | expectedFormula
  | tooManyClauses
  | comparisonOperands (head : String)
  | mixed
  | severalInputs
  | unsupportedFormula
  | topLevelToken
  | declaration
  | notAVariable
  | assertOperands
  | topLevelForm
  | noInputsOrOutputs
  | undeclaredInput (i : Nat)
  | undeclaredOutput (j : Nat)
deriving DecidableEq, Repr

inductive SExpr where
  | atom (t : String)
  | list (es : List SExpr)
deriving Repr

/-- The characters that the class `\s` of a text pattern matches. -/
def isSpace (c : Char) : Bool :=
  c.toNat ∈ [9, 10, 11, 12, 13, 28, 29, 30, 31, 32, 133, 160, 5760, 8192, 8193, 8194, 8195, 8196, 8197,
    8198, 8199, 8200, 8201, 8202, 8232, 8233, 8239, 8287, 12288]

/-- The digits zero of the decimal scripts; each is followed by the other nine. -/
def decimalZeros : List Nat :=
  [48, 1632, 1776, 1984, 2406, 2534, 2662, 2790, 2918, 3046, 3174, 3302, 3430, 3558, 3664, 3792, 3872,
    4160, 4240, 6112, 6160, 6470, 6608, 6784, 6800, 6992, 7088, 7232, 7248, 42528, 43216, 43264, 43472,
    43504, 43600, 44016, 65296, 66720, 68912, 69734, 69872, 69942, 70096, 70384, 70736, 70864, 71248,
    71360, 71472, 71904, 72016, 72784, 73040, 73120, 92768, 92864, 93008, 120782, 120792, 120802,
    120812, 120822, 123200, 123632, 125264, 130032]

/-- The class `\d`. -/
def digit? (c : Char) : Option Nat :=
  (decimalZeros.find? fun z => z ≤ c.toNat && c.toNat < z + 10).map fun z => c.toNat - z

/-- Drop each comment, from a semicolon to the end of its line. -/
def stripComments : Bool → List Char → List Char
  | _, [] => []
  | true, c :: cs => if c = '\n' then c :: stripComments false cs else stripComments true cs
  | false, c :: cs => if c = ';' then stripComments true cs else c :: stripComments false cs

def flush (word : List Char) : List String := if word = [] then [] else [String.ofList word.reverse]

/-- Parentheses stand alone, and every other token is a longest run free of spaces and parentheses;
`word` is the run read so far, last character first. -/
def tokens (word : List Char) : List Char → List String
  | [] => flush word
  | c :: cs =>
    if c = '(' ∨ c = ')' then flush word ++ String.singleton c :: tokens [] cs
    else if isSpace c then flush word ++ tokens [] cs
    else tokens (c :: word) cs

def tokenize (text : String) : List String := tokens [] (stripComments false text.toList)

/-- Put a finished expression into the innermost open list, or at the top. -/
def emit (e : SExpr) (out : List SExpr) : List (List SExpr) → List SExpr × List (List SExpr)
  | [] => (out ++ [e], [])
  | top :: stack => (out, (top ++ [e]) :: stack)

def sexprsLoop (out : List SExpr) (stack : List (List SExpr)) :
    List String → Except VnnlibError (List SExpr)
  | [] => if stack = [] then .ok out else .error .unbalancedOpen
  | t :: ts =>
    if t = "(" then sexprsLoop out ([] :: stack) ts
    else if t = ")" then
      match stack with
      | [] => .error .unbalancedClose
      | done :: stack =>
        let (out, stack) := emit (.list done) out stack
        sexprsLoop out stack ts
    else
      let (out, stack) := emit (.atom t) out stack
      sexprsLoop out stack ts

def sexprs (ts : List String) : Except VnnlibError (List SExpr) := sexprsLoop [] [] ts

inductive VarKind where
  | X
  | Y
deriving DecidableEq, Repr

/-- A variable of the property: `X_i` is an input, `Y_j` an output. -/
abbrev Var := VarKind × Nat

/-- The number that a run of digits denotes, if there is a digit and nothing else. -/
def number? (cs : List Char) : Option Nat :=
  if cs = [] then none else cs.foldl (fun n c => n.bind fun n => (digit? c).map (10 * n + ·)) (some 0)

def readVar (t : String) : Option Var :=
  match t.toList with
  | 'X' :: '_' :: cs => (number? cs).map (VarKind.X, ·)
  | 'Y' :: '_' :: cs => (number? cs).map (VarKind.Y, ·)
  | _ => none

/-- Underscores are dropped when a digit stands on both sides. -/
def dropUnderscores : Bool → List Char → Option (List Char)
  | _, [] => some []
  | afterDigit, c :: cs =>
    if c = '_' then
      if afterDigit && (cs.head?.bind digit?).isSome then dropUnderscores false cs else none
    else (dropUnderscores (digit? c).isSome cs).map (c :: ·)

def splitSign : List Char → Bool × List Char
  | '-' :: cs => (true, cs)
  | '+' :: cs => (false, cs)
  | cs => (false, cs)

/-- The digits at the front, as a number, how many they are, and what follows. -/
def spanDigits (n len : Nat) : List Char → Nat × Nat × List Char
  | [] => (n, len, [])
  | c :: cs =>
    match digit? c with
    | some d => spanDigits (10 * n + d) (len + 1) cs
    | none => (n, len, c :: cs)

/-- The exponent of a decimal: nothing, or the letter, an optional sign and digits. -/
def exponent? : List Char → Option Int
  | [] => some 0
  | c :: cs =>
    if c = 'e' ∨ c = 'E' then
      let (negative, ds) := splitSign cs
      (number? ds).map fun n => if negative then -(n : Int) else n
    else none

/-- A decimal numeral as the rational it denotes: sign, digits, point, digits, exponent, with a digit
on one side of the point at least. The numerals for infinities and for no number denote none. -/
def readFloat (t : String) : Option ℚ := do
  let cs ← dropUnderscores false t.toList
  let (negative, cs) := splitSign cs
  let (whole, wlen, cs) := spanDigits 0 0 cs
  let (mantissa, len, flen, cs) :=
    match cs with
    | '.' :: rest =>
      let (m, l, rest) := spanDigits whole wlen rest
      (m, l, l - wlen, rest)
    | cs => (whole, wlen, 0, cs)
  if len = 0 then none
  else
    let e ← exponent? cs
    let q : ℚ := (mantissa : ℚ) * 10 ^ (e - flen)
    some (if negative then -q else q)

end Onnxsim.Vnnlib.Text

namespace Onnxsim.Vnnlib.Linear

open List Lib.Dicts Lib.Results Text

/-- A linear expression: the coefficients of its variables, and its constant. -/
structure Lin where
  coefs : Dict Var ℚ
  const : ℚ

def noLin : Lin := ⟨.empty, 0⟩

def addLin (l r : Lin) : Lin := ⟨l.coefs.addAll (AddMonoidHom.id ℚ) r.coefs, l.const + r.const⟩

def subLin (l r : Lin) : Lin := ⟨l.coefs.addAll (-AddMonoidHom.id ℚ) r.coefs, l.const - r.const⟩

def negLin (l : Lin) : Lin := ⟨l.coefs.mapVals fun x => -x, -l.const⟩

/-- One operand of a product; a variable operand takes the constants gathered so far. -/
def mulStep (r c : Lin) : Except VnnlibError Lin :=
  if c.coefs.entries ≠ [] ∧ r.coefs.entries ≠ [] then .error .nonLinear
  else if c.coefs.entries ≠ [] then .ok ⟨c.coefs.mapVals fun x => x * r.const, c.const * r.const⟩
  else .ok ⟨r.coefs.mapVals fun x => x * c.const, r.const * c.const⟩

def divLin (l d : Lin) : Except VnnlibError Lin :=
  if d.coefs.entries ≠ [] ∨ d.const = 0 then .error .divisionByNonConstant
  else .ok ⟨l.coefs.mapVals fun x => x / d.const, l.const / d.const⟩

def linAtom (t : String) : Except VnnlibError Lin :=
  match readVar t with
  | some v => .ok ⟨Dict.empty.set v 1, 0⟩
  | none =>
    match readFloat t with
    | some q => .ok ⟨.empty, q⟩
    | none => .error (.unknownSymbol t)

mutual

def lin : SExpr → Except VnnlibError Lin
  | .atom t => linAtom t
  | .list [] => .error .emptyExpression
  | .list (.list _ :: _) => .error .unsupportedOperator
  | .list (.atom head :: args) =>
    if head = "+" then linFold (fun l r => .ok (addLin l r)) noLin args
    else if head = "-" then linMinus args
    else if head = "*" then linFold mulStep ⟨.empty, 1⟩ args
    else if head = "/" then linOver args
    else .error .unsupportedOperator

def linMinus : List SExpr → Except VnnlibError Lin
  | [] => .error .index
  | [a] => do .ok (negLin (← lin a))
  | a :: b :: rest => do linFold (fun l r => .ok (subLin l r)) (← lin a) (b :: rest)

def linOver : List SExpr → Except VnnlibError Lin
  | [a, b] => do divLin (← lin a) (← lin b)
  | _ => .error .divisionOperands

def linFold (step : Lin → Lin → Except VnnlibError Lin) (acc : Lin) :
    List SExpr → Except VnnlibError Lin
  | [] => .ok acc
  | a :: rest => do linFold step (← step acc (← lin a)) rest

end

/-- The values of the inputs and the outputs. -/
structure Point where
  x : Nat → ℚ
  y : Nat → ℚ

def Point.at (p : Point) (v : Var) : ℚ :=
  match v.1 with
  | .X => p.x v.2
  | .Y => p.y v.2

def quotient? : List ℚ → Option ℚ
  | [u, v] => if v = 0 then none else some (u / v)
  | _ => none

def difference? : List ℚ → Option ℚ
  | [] => none
  | [u] => some (-u)
  | u :: us => some (u - us.sum)

def operate (head : String) (vs : List ℚ) : Option ℚ :=
  if head = "+" then some vs.sum
  else if head = "-" then difference? vs
  else if head = "*" then some vs.prod
  else if head = "/" then quotient? vs
  else none

mutual

def evalExpr (p : Point) : SExpr → Option ℚ
  | .atom t =>
    match readVar t with
    | some v => some (p.at v)
    | none => readFloat t
  | .list (.atom head :: args) => (evalAll p args).bind (operate head)
  | .list _ => none

def evalAll (p : Point) : List SExpr → Option (List ℚ)
  | [] => some []
  | e :: es => do
    let v ← evalExpr p e
    let vs ← evalAll p es
    some (v :: vs)

end

def term (p : Point) (v : Var) : ℚ →+ ℚ := AddMonoidHom.mulRight (p.at v)

@[simp] theorem term_apply (p : Point) (v : Var) (x : ℚ) : term p v x = x * p.at v := rfl

def linear (p : Point) (d : Dict Var ℚ) : ℚ := d.total fun v x => term p v x

def Lin.value (p : Point) (l : Lin) : ℚ := linear p l.coefs + l.const

theorem linear_of_entries_nil (p : Point) {d : Dict Var ℚ} (h : d.entries = []) : linear p d = 0 := by
  rw [linear, Dict.total, h]
  rfl

theorem linear_mapVals_mul (p : Point) (k : ℚ) (d : Dict Var ℚ) :
    linear p (d.mapVals fun x => x * k) = linear p d * k := by
  rw [linear, Dict.total_mapVals, linear, Dict.total, Dict.total]
  induction d.entries with
  | nil => simp
  | cons e l ih =>
    rw [map_cons, map_cons, sum_cons, sum_cons, ih, term_apply, term_apply]
    ring

theorem mapVals_congr {f g : ℚ → ℚ} (h : ∀ x, f x = g x) (d : Dict Var ℚ) :
    d.mapVals f = d.mapVals g := congrArg d.mapVals (funext h)

@[simp] theorem value_noLin (p : Point) : noLin.value p = 0 := by
  rw [Lin.value, linear_of_entries_nil p rfl, noLin, zero_add]

theorem value_addLin (p : Point) (l r : Lin) : (addLin l r).value p = l.value p + r.value p := by
  rw [Lin.value, addLin, linear, Dict.total_addAll]
  simp only [AddMonoidHom.id_apply, Lin.value, linear]
  ring

theorem value_negLin (p : Point) (l : Lin) : (negLin l).value p = -l.value p := by
  have hneg : l.coefs.mapVals (fun x => -x) = l.coefs.mapVals (fun x => x * (-1)) :=
    mapVals_congr (fun x => by ring) l.coefs
  rw [Lin.value, negLin, hneg, linear_mapVals_mul, Lin.value]
  ring

theorem linear_addAll_neg (p : Point) (d e : Dict Var ℚ) :
    linear p (d.addAll (-AddMonoidHom.id ℚ) e) = linear p d - linear p e := by
  have hneg : (e.total fun v x => term p v ((-AddMonoidHom.id ℚ) x)) = -linear p e := by
    have h := linear_mapVals_mul p (-1) e
    rw [linear, Dict.total_mapVals] at h
    calc (e.total fun v x => term p v ((-AddMonoidHom.id ℚ) x))
        = e.total fun v x => term p v (x * (-1)) := by
          congr 1
          funext v x
          simp
      _ = linear p e * (-1) := h
      _ = -linear p e := by ring
  rw [linear, Dict.total_addAll, hneg, ← sub_eq_add_neg, ← linear]

theorem value_subLin (p : Point) (l r : Lin) : (subLin l r).value p = l.value p - r.value p := by
  rw [Lin.value, subLin, linear_addAll_neg, Lin.value, Lin.value]
  ring

theorem value_mulStep (p : Point) {r c out : Lin} (h : mulStep r c = .ok out) :
    out.value p = r.value p * c.value p := by
  rw [mulStep] at h
  split at h
  · cases h
  · next hne =>
    split at h
    · next hc =>
      have hr : r.coefs.entries = [] := by
        by_contra hr
        exact hne ⟨hc, hr⟩
      cases h
      simp only [Lin.value, linear_mapVals_mul, linear_of_entries_nil p hr]
      ring
    · next hc =>
      have hc' : c.coefs.entries = [] := not_not.mp hc
      cases h
      simp only [Lin.value, linear_mapVals_mul, linear_of_entries_nil p hc']
      ring

theorem value_divLin (p : Point) {l d out : Lin} (h : divLin l d = .ok out) :
    quotient? [l.value p, d.value p] = some (out.value p) := by
  rw [divLin] at h
  split at h
  · cases h
  · next hne =>
    push Not at hne
    cases h
    have hd : d.value p = d.const := by rw [Lin.value, linear_of_entries_nil p hne.1, zero_add]
    have hdiv : l.coefs.mapVals (fun x => x / d.const) = l.coefs.mapVals (fun x => x * d.const⁻¹) :=
      mapVals_congr (fun x => div_eq_mul_inv x d.const) l.coefs
    rw [quotient?, hd, if_neg hne.2]
    simp only [Lin.value, hdiv, linear_mapVals_mul]
    congr 1
    ring

theorem value_linAtom (p : Point) {t : String} {l : Lin} (h : linAtom t = .ok l) :
    evalExpr p (.atom t) = some (l.value p) := by
  rw [linAtom] at h
  rw [evalExpr]
  cases hv : readVar t with
  | some v =>
    rw [hv] at h
    cases h
    simp [Lin.value, linear, Dict.total, Dict.set, setList]
  | none =>
    rw [hv] at h
    cases hf : readFloat t with
    | some q =>
      rw [hf] at h
      cases h
      simp [Lin.value, linear_of_entries_nil p Dict.entries_empty]
    | none =>
      rw [hf] at h
      cases h

theorem foldl_sub (u : ℚ) (vs : List ℚ) : vs.foldl (fun a b => a - b) u = u - vs.sum := by
  induction vs generalizing u with
  | nil => simp
  | cons v vs ih =>
    rw [foldl_cons, ih, sum_cons]
    ring

theorem difference?_cons (u : ℚ) {vs : List ℚ} (h : vs ≠ []) :
    difference? (u :: vs) = some (u - vs.sum) := by
  cases vs with
  | nil => exact absurd rfl h
  | cons v vs => rfl

theorem evalAll_cons_ne_nil (p : Point) (e : SExpr) (es : List SExpr) :
    evalAll p (e :: es) ≠ some [] := by
  rw [evalAll]
  cases evalExpr p e with
  | none => simp
  | some v => cases evalAll p es <;> simp

mutual

theorem value_lin (p : Point) : (e : SExpr) → {l : Lin} → lin e = .ok l →
    evalExpr p e = some (l.value p)
  | .atom t, l, h => value_linAtom p h
  | .list [], l, h => by cases h
  | .list (.list _ :: _), l, h => by cases h
  | .list (.atom head :: args), l, h => by
    rw [lin] at h
    rw [evalExpr]
    split at h
    · next hhead =>
      obtain ⟨vs, hvs, hl⟩ := value_linFold p (fun a b => a + b)
        (fun a b out hs => by cases hs; exact value_addLin p a b) args h
      rw [value_noLin] at hl
      simp [hvs, operate, hhead, hl, sum_eq_foldl]
    · split at h
      · next hhead =>
        obtain ⟨vs, hvs, hl⟩ := value_linMinus p args h
        simp [hvs, operate, hhead, hl]
      · split at h
        · next hhead =>
          obtain ⟨vs, hvs, hl⟩ := value_linFold p (fun a b => a * b)
            (fun a b out hs => value_mulStep p hs) args h
          have hone : Lin.value p ⟨.empty, 1⟩ = 1 := by
            rw [Lin.value, linear_of_entries_nil p rfl, zero_add]
          rw [hone] at hl
          simp [hvs, operate, hhead, hl, prod_eq_foldl]
        · split at h
          · next hhead =>
            obtain ⟨vs, hvs, hl⟩ := value_linOver p args h
            simp [hvs, operate, hhead, hl]
          · cases h

theorem value_linMinus (p : Point) : (args : List SExpr) → {l : Lin} → linMinus args = .ok l →
    ∃ vs, evalAll p args = some vs ∧ difference? vs = some (l.value p)
  | [], l, h => by cases h
  | [a], l, h => by
    rw [linMinus] at h
    obtain ⟨la, ha, h⟩ := bind_eq_ok h
    cases h
    refine ⟨[la.value p], ?_, ?_⟩
    · rw [evalAll, value_lin p a ha]
      rfl
    · rw [difference?, value_negLin]
  | a :: b :: rest, l, h => by
    rw [linMinus] at h
    obtain ⟨la, ha, h⟩ := bind_eq_ok h
    obtain ⟨vs, hvs, hl⟩ := value_linFold p (fun a b => a - b)
      (fun a b out hs => by cases hs; exact value_subLin p a b) (b :: rest) h
    have hne : vs ≠ [] := by
      rintro rfl
      exact evalAll_cons_ne_nil p b rest hvs
    refine ⟨la.value p :: vs, ?_, ?_⟩
    · rw [evalAll, value_lin p a ha, hvs]
      rfl
    · rw [difference?_cons _ hne, hl, foldl_sub]

theorem value_linOver (p : Point) : (args : List SExpr) → {l : Lin} → linOver args = .ok l →
    ∃ vs, evalAll p args = some vs ∧ quotient? vs = some (l.value p)
  | [], l, h => by cases h
  | [_], l, h => by cases h
  | _ :: _ :: _ :: _, l, h => by cases h
  | [a, b], l, h => by
    rw [linOver] at h
    obtain ⟨la, ha, h⟩ := bind_eq_ok h
    obtain ⟨lb, hb, h⟩ := bind_eq_ok h
    refine ⟨[la.value p, lb.value p], ?_, value_divLin p h⟩
    rw [evalAll, value_lin p a ha, evalAll, value_lin p b hb]
    rfl

theorem value_linFold (p : Point) (op : ℚ → ℚ → ℚ) {step : Lin → Lin → Except VnnlibError Lin}
    (hstep : ∀ a b out, step a b = .ok out → out.value p = op (a.value p) (b.value p)) :
    (args : List SExpr) → {acc out : Lin} → linFold step acc args = .ok out →
      ∃ vs, evalAll p args = some vs ∧ out.value p = vs.foldl op (acc.value p)
  | [], acc, out, h => by
    cases h
    exact ⟨[], rfl, rfl⟩
  | a :: rest, acc, out, h => by
    rw [linFold] at h
    obtain ⟨la, ha, h⟩ := bind_eq_ok h
    obtain ⟨acc', hacc, h⟩ := bind_eq_ok h
    obtain ⟨vs, hvs, hout⟩ := value_linFold p op hstep rest h
    refine ⟨la.value p :: vs, ?_, ?_⟩
    · rw [evalAll, value_lin p a ha, hvs]
      rfl
    · rw [hout, hstep _ _ _ hacc, foldl_cons]

end

end Onnxsim.Vnnlib.Linear
