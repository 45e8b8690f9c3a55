import Onnxsim.Lib.Memories
import Onnxsim.Lib.Runs
import Onnxsim.Overflow.Operators
import Onnxsim.Rigorous.TreeSums

namespace Onnxsim.Rigorous.Operations

open Overflow.Arrays Overflow.Operators Rigorous.Float32 Covering
open Kernels Contractions TreeSums

section

abbrev Index := List Nat

/-- What a `P` holds: values and, unless they are exact, errors. -/
structure PTensor where
  shape : List Nat
  v : Index → ℚ
  e : Option (Index → ℚ)

/-- What a `K` holds. -/
structure KTensor where
  shape : List Nat
  v : Index → ℚ
  e : Option (Index → ℚ)

/-- A tensor of the computation over the real numbers. -/
structure RTensor where
  shape : List Nat
  x : Index → ℚ

/-- Where a `K` comes from, with the numbers it is meant to hold. -/
inductive Constant where
  | fromNumpy (shape : List Nat) (x : Index → ℚ)
  | exact (shape : List Nat) (x : Index → ℚ)
  | index (k : Constant) (shape : List Nat) (source : Index → Index)

def Constant.intended : Constant → RTensor
  | .fromNumpy shape x => ⟨shape, x⟩
  | .exact shape x => ⟨shape, x⟩
  | .index k shape source => ⟨shape, k.intended.x ∘ source⟩

variable (A : Arithmetic)

def castError (x : ℚ) : ℚ := |x - A.cast x|

def Constant.tensor : Constant → KTensor
  | .fromNumpy shape x =>
    ⟨shape, fun i => A.cast (x i),
      if (indices shape).all fun i => castError A (x i) = 0 then none else some fun i => up32 A (castError A (x i))⟩
  | .exact shape x => ⟨shape, fun i => A.cast (x i), none⟩
  | .index k shape source => ⟨shape, k.tensor.v ∘ source, k.tensor.e.map (· ∘ source)⟩

/-- `K.exact` is for numbers that are float32 already, and an index picks elements that are there. -/
def Constant.Proper : Constant → Prop
  | .fromNumpy _ _ => True
  | .exact shape x => ∀ i ∈ indices shape, A.cast (x i) = x i
  | .index k shape source => k.Proper ∧ ∀ i ∈ indices shape, source i ∈ indices k.intended.shape

/-- The constant that `__mul__` makes of a number other than `1` and `-1`. -/
def Constant.number (f : ℚ) : Constant := .fromNumpy [] fun _ => f

/-- Both operands of a broadcast can be read wherever the result has an element. -/
def Broadcasts (s t shape : List Nat) : Prop :=
  shape = broadcastBatch s t ∧ ∀ i ∈ indices shape, alignIndex s i ∈ indices s ∧ alignIndex t i ∈ indices t

def reducedAxes (rank : Nat) (dims : Option (List Int)) : List Bool :=
  match dims with
  | none => List.replicate rank true
  | some dims => (List.range rank).map fun d : Nat => dims.any fun dim => dim % (rank : Int) = (d : Int)

def reducedShape (keepdim : Bool) : List Nat → List Bool → List Nat
  | _ :: shape, true :: reduced =>
    if keepdim then 1 :: reducedShape keepdim shape reduced else reducedShape keepdim shape reduced
  | d :: shape, _ :: reduced => d :: reducedShape keepdim shape reduced
  | _, _ => []

/-- The elements that are summed into one, in row-major order. -/
def fiber (keepdim : Bool) : List Nat → List Bool → Index → List Index
  | d :: shape, true :: reduced, i =>
    (List.range d).flatMap fun j => (fiber keepdim shape reduced (if keepdim then i.tail else i)).map (j :: ·)
  | _ :: shape, false :: reduced, i => (fiber keepdim shape reduced i.tail).map (i.headD 0 :: ·)
  | _, _, _ => [[]]

/-- What a contraction multiplies and adds for each element of its result. -/
structure Contraction where
  shape : List Nat
  size : Nat
  terms : Index → List (Index × Index)

def matmul (s t : List Nat) : Contraction where
  shape := matMulShape s t
  size := s.getLastD 0
  terms i := (List.range (s.getLastD 0)).map fun k =>
    (leftIndex s (matIndex s t i) k, rightIndex t (matIndex s t i) k)

structure Equation where
  left : List Char
  right : List Char
  out : List Char

def parseEquation (eq : String) : Option Equation :=
  match (eq.replace " " "").splitOn "->" with
  | [ins, out] =>
    match ins.splitOn "," with
    | [left, right] => some ⟨left.toList, right.toList, out.toList⟩
    | _ => none
  | _ => none

namespace Equation

variable (eq : Equation) (s t : List Nat)

def size (c : Char) : Nat :=
  ((eq.left.zip s ++ eq.right.zip t).filter fun p => p.1 = c).foldl (fun n p => max n p.2) 1

def contracted : List Char := ((eq.left ++ eq.right).dedup).filter fun c => c ∉ eq.out

/-- `_contraction_size`. -/
def contractionSize : Nat := (eq.contracted.map (eq.size s t)).prod

def lookup (labels : List Char) (i : Index) (c : Char) : Nat := i.getD (labels.idxOf c) 0

/-- The index of an operand, given the values of all labels; a side of length one is broadcast. -/
def operandIndex (spec : List Char) (shape : List Nat) (value : Char → Nat) : Index :=
  List.zipWith (fun c d => if d = 1 then 0 else value c) spec shape

def contraction : Contraction where
  shape := eq.out.map (eq.size s t)
  size := eq.contractionSize s t
  terms i := (indices (eq.contracted.map (eq.size s t))).map fun j =>
    let value := fun c => if c ∈ eq.out then lookup eq.out i c else lookup eq.contracted j c
    (operandIndex eq.left s value, operandIndex eq.right t value)

end Equation

/-- `P.__add__`. -/
def Adds (p q r : PTensor) : Prop :=
  Broadcasts p.shape q.shape r.shape ∧ ∃ e, r.e = some e ∧ ∀ i ∈ indices r.shape,
    r.v i = A.add (p.v (alignIndex p.shape i)) (q.v (alignIndex q.shape i)) ∧
      fin A (addTerms A (p.e.map (· (alignIndex p.shape i))) (q.e.map (· (alignIndex q.shape i))) (r.v i)) 2 =
        some (e i)

/-- `P.__mul__` with a `K`. -/
def Multiplies (p : PTensor) (k : KTensor) (r : PTensor) : Prop :=
  Broadcasts p.shape k.shape r.shape ∧ ∃ e, r.e = some e ∧ ∀ i ∈ indices r.shape,
    r.v i = A.mul (p.v (alignIndex p.shape i)) (k.v (alignIndex k.shape i)) ∧
      fin A (mulTerms A (r.v i) (p.v (alignIndex p.shape i)) (p.e.map (· (alignIndex p.shape i)))
        |k.v (alignIndex k.shape i)| (k.e.map (· (alignIndex k.shape i)))) 3 = some (e i)

/-- `P.__truediv__`. -/
def Divides (p : PTensor) (f : ℚ) (r : PTensor) : Prop :=
  r.shape = p.shape ∧ ∃ e, r.e = some e ∧ ∀ i ∈ indices r.shape,
    r.v i = A.div (p.v i) (A.cast f) ∧ fin A (divTerms A (r.v i) (p.v i) (p.e.map (· i)) f) 3 = some (e i)

/-- `P.sum`. -/
def Sums (p : PTensor) (dims : Option (List Int)) (keepdim : Bool) (r : PTensor) : Prop :=
  r.shape = reducedShape keepdim p.shape (reducedAxes p.shape.length dims) ∧ ∃ e, r.e = some e ∧
    ∀ i ∈ indices r.shape, ∃ levels g terms,
      let is := fiber keepdim p.shape (reducedAxes p.shape.length dims) i
      TreeSum A (is.map p.v) (r.v i) levels ∧ gamma A (treeTerms is.length levels) = some g ∧
        SumTerms A g (is.map p.v) (p.e.map fun e => is.map e) terms ∧
          fin A terms (treeTerms is.length levels + 2) = some (e i)

/-- `P.__matmul__` and `einsum`: every element is a dot product. -/
def Contracts (c : Contraction) (p : PTensor) (k : KTensor) (r : PTensor) : Prop :=
  r.shape = c.shape ∧ (∀ i ∈ indices c.shape, ∀ t ∈ c.terms i, t.1 ∈ indices p.shape ∧ t.2 ∈ indices k.shape) ∧
    ∃ e g, r.e = some e ∧ gamma A c.size = some g ∧ ∀ i ∈ indices c.shape, ∃ terms,
      Dots A ((c.terms i).map fun t => (p.v t.1, k.v t.2)) (r.v i) ∧
        ContractionTerms A g (c.terms i) (fun t => p.v t.1) (p.e.map fun e t => e t.1) (fun t => k.v t.2)
          (k.e.map fun e t => e t.2) terms ∧
        fin A terms (c.size + 2) = some (e i)

end

namespace RTensor

variable (X Y : RTensor)

def add : RTensor :=
  ⟨broadcastBatch X.shape Y.shape, fun i => X.x (alignIndex X.shape i) + Y.x (alignIndex Y.shape i)⟩

def mul : RTensor :=
  ⟨broadcastBatch X.shape Y.shape, fun i => X.x (alignIndex X.shape i) * Y.x (alignIndex Y.shape i)⟩

def div (f : ℚ) : RTensor := ⟨X.shape, fun i => X.x i / f⟩

def sum (dims : Option (List Int)) (keepdim : Bool) : RTensor :=
  ⟨reducedShape keepdim X.shape (reducedAxes X.shape.length dims),
    fun i => ((fiber keepdim X.shape (reducedAxes X.shape.length dims) i).map X.x).sum⟩

def contract (c : Contraction) : RTensor := ⟨c.shape, fun i => ((c.terms i).map fun t => X.x t.1 * Y.x t.2).sum⟩

end RTensor

end Onnxsim.Rigorous.Operations

namespace Onnxsim.Rigorous.Machine

open Lib.Stores Overflow.Arrays Rigorous.Float32 Kernels
open Contractions Operations

/-- A tensor in memory. -/
structure View where
  shape : List Nat
  ptr : Nat
  strides : List Nat

def View.address (v : View) (i : Index) : Nat := v.ptr + (List.zipWith (· * ·) i v.strides).sum

/-- A `P`; no view of errors stands for `None`. -/
structure Obj where
  v : View
  e : Option View

/-- The memory of the values and the one of the errors, the objects so far and the first address not in use. -/
structure State where
  vals : Nat → ℚ
  errs : Nat → ℚ
  objs : List Obj
  next : Nat

/-- The computation over the real numbers. -/
structure Reals where
  cells : Nat → ℚ
  objs : List View

def State.tensor (m : State) (o : Obj) : PTensor :=
  ⟨o.v.shape, fun i => m.vals (o.v.address i), o.e.map fun e i => m.errs (e.address i)⟩

def State.read (m : State) (a : Nat) : Option PTensor := m.objs[a]?.map m.tensor

def Reals.tensor (x : Reals) (v : View) : RTensor := ⟨v.shape, fun i => x.cells (v.address i)⟩

def Reals.read (x : Reals) (a : Nat) : Option RTensor := x.objs[a]?.map x.tensor

/-- The elements that indexing, `reshape` or `permute` picks. -/
structure Selection where
  shape : List Nat
  source : Index → Index

def Selection.Inside (sel : Selection) (shape : List Nat) : Prop :=
  ∀ i ∈ indices sel.shape, sel.source i ∈ indices shape

/-- What makes a new tensor of old ones. -/
inductive Operation where
  | tensor (shape : List Nat) (x : Index → ℚ) (zeros : Bool)
  | add (a b : Nat)
  | mul (a : Nat) (k : Constant)
  | div (a : Nat) (f : ℚ)
  | matmul (a : Nat) (k : Constant)
  | einsum (eq : String) (a : Nat) (k : Constant)
  | sum (a : Nat) (dims : Option (List Int)) (keepdim : Bool)

/-- The operations whose result keeps the operand's errors. -/
inductive Sign where
  | negate
  | pos
  | neg

def Sign.apply : Sign → ℚ → ℚ
  | .negate, x => -x
  | .pos, x => max x 0
  | .neg, x => min x 0

inductive Taking where
  | index (sel : Selection)
  | reshape (sizes : List Int)
  | permute (perm : List Int)

/-- The sizes of a reshape, one of which may be `-1`. -/
def resolve (numel : Nat) (sizes : List Int) : List Nat :=
  sizes.map fun d => if d = -1 then numel / ((sizes.filter fun d => d ≠ -1).map Int.toNat).prod else d.toNat

def axes (rank : Nat) (perm : List Int) : List Nat := perm.map fun d => (d % (rank : Int)).toNat

def Taking.selection (shape : List Nat) : Taking → Selection
  | .index sel => sel
  | .reshape sizes =>
    ⟨resolve shape.prod sizes, fun i => (indices shape).getD ((indices (resolve shape.prod sizes)).idxOf i) []⟩
  | .permute perm =>
    ⟨(axes shape.length perm).map fun d => shape.getD d 1,
      fun i => (List.range shape.length).map fun d => i.getD ((axes shape.length perm).idxOf d) 0⟩

/-- One call of a method of `P`. The views are where its result is put; `target` is the view that the index of
an assignment makes, unless it makes a copy. -/
inductive Instruction where
  | result (op : Operation) (v : View) (e : Option View)
  | times (a : Nat) (f : ℚ) (v : View) (e : Option View)
  | sign (s : Sign) (a : Nat) (v : View)
  | take (t : Taking) (a : Nat) (v : View) (e : Option View)
  | iadd (a b : Nat)
  | assign (a : Nat) (sel : Selection) (target : Option View) (b : Nat)

variable (A : Arithmetic)

def Computes (m : State) (r : PTensor) : Operation → Prop
  | .tensor shape x zeros => r = ⟨shape, x, if zeros then some fun _ => 0 else none⟩
  | .add a b => ∃ p q, m.read a = some p ∧ m.read b = some q ∧ Adds A p q r
  | .mul a k => ∃ p, m.read a = some p ∧ Multiplies A p (k.tensor A) r
  | .div a f => ∃ p, m.read a = some p ∧ Divides A p f r
  | .matmul a k => ∃ p, m.read a = some p ∧ Contracts A (matmul p.shape (k.tensor A).shape) p (k.tensor A) r
  | .einsum eq a k => ∃ p q, m.read a = some p ∧ parseEquation eq = some q ∧
      Contracts A (q.contraction p.shape (k.tensor A).shape) p (k.tensor A) r
  | .sum a dims keepdim => ∃ p, m.read a = some p ∧ Sums A p dims keepdim r

/-- Memory that nothing uses yet. -/
structure Fresh (n n' : Nat) (v : View) : Prop where
  unused : ∀ i ∈ indices v.shape, n ≤ v.address i
  below : ∀ i ∈ indices v.shape, v.address i < n'
  separate : Separate (indices v.shape) v.address

/-- A new tensor of the elements `f` is put at `v`. -/
structure Puts (n n' : Nat) (shape : List Nat) (f : Index → ℚ) (v : View) (s t : Nat → ℚ) : Prop where
  shape_eq : v.shape = shape
  fresh : Fresh n n' v
  written : Written (indices shape) v.address f s t

/-- The elements picked from `o` are at `v`, in a view of `o` or in a copy. -/
structure Picks (n n' : Nat) (sel : Selection) (o v : View) (s t : Nat → ℚ) : Prop where
  shape_eq : v.shape = sel.shape
  place : (∀ i ∈ indices sel.shape, v.address i = o.address (sel.source i)) ∨ Fresh n n' v
  written : Written (indices sel.shape) v.address (fun i => s (o.address (sel.source i))) s t

/-- What is done with the errors, where there are any. -/
inductive Errors {α : Type} (R : α → View → (Nat → ℚ) → (Nat → ℚ) → Prop) :
    Option α → Option View → (Nat → ℚ) → (Nat → ℚ) → Prop
  | none {s : Nat → ℚ} : Errors R none none s s
  | some {a : α} {v : View} {s t : Nat → ℚ} : R a v s t → Errors R (some a) (some v) s t

/-- `tgt.data_ptr() == value.v.data_ptr() and tgt.stride() == value.v.stride()` in `__setitem__`. -/
def Already (target : Option View) (q : View) : Prop := ∃ t, target = some t ∧ t.ptr = q.ptr ∧ t.strides = q.strides

def Targets (sel : Selection) (o : View) (target : Option View) : Prop :=
  ∀ t, target = some t → t.shape = sel.shape ∧ ∀ i ∈ indices sel.shape, t.address i = o.address (sel.source i)

inductive Step : Instruction → State → State → Prop
  | result {op : Operation} {v : View} {e : Option View} {m m' : State} {r : PTensor} :
      Computes A m r op → m.next ≤ m'.next → Puts m.next m'.next r.shape r.v v m.vals m'.vals →
      Errors (Puts m.next m'.next r.shape) r.e e m.errs m'.errs → m'.objs = m.objs ++ [⟨v, e⟩] →
      Step (.result op v e) m m'
  | same {a : Nat} {v : View} {e : Option View} {m : State} {o : Obj} :
      m.objs[a]? = some o → Step (.times a 1 v e) m { m with objs := m.objs ++ [o] }
  | negated {a : Nat} {v : View} {e : Option View} {m m' : State} :
      Step (.sign .negate a v) m m' → Step (.times a (-1) v e) m m'
  | times {a : Nat} {f : ℚ} {v : View} {e : Option View} {m m' : State} : f ≠ 1 → f ≠ -1 →
      Step (.result (.mul a (.number f)) v e) m m' → Step (.times a f v e) m m'
  | sign {s : Sign} {a : Nat} {v : View} {m m' : State} {o : Obj} :
      m.objs[a]? = some o → m.next ≤ m'.next →
      Puts m.next m'.next o.v.shape (fun i => s.apply (m.vals (o.v.address i))) v m.vals m'.vals →
      m'.errs = m.errs → m'.objs = m.objs ++ [⟨v, o.e⟩] → Step (.sign s a v) m m'
  | take {t : Taking} {a : Nat} {v : View} {e : Option View} {m m' : State} {o : Obj} :
      m.objs[a]? = some o → (t.selection o.v.shape).Inside o.v.shape → m.next ≤ m'.next →
      Picks m.next m'.next (t.selection o.v.shape) o.v v m.vals m'.vals →
      Errors (Picks m.next m'.next (t.selection o.v.shape)) o.e e m.errs m'.errs →
      m'.objs = m.objs ++ [⟨v, e⟩] → Step (.take t a v e) m m'
  | iadd {a b : Nat} {m : State} {o q : Obj} {ev : View} {vals mid errs : Nat → ℚ} {f : Index → ℚ} :
      m.objs[a]? = some o → m.objs[b]? = some q → o.e = some ev → Broadcasts o.v.shape q.v.shape o.v.shape →
      Separate (indices o.v.shape) o.v.address →
      Written (indices o.v.shape) o.v.address
        (fun i => A.add (m.vals (o.v.address i)) (m.vals (q.v.address (alignIndex q.v.shape i)))) m.vals vals →
      -- the other tensor's errors are read after the first of the additions to them
      Written (indices o.v.shape) ev.address
        (fun i => A.add (m.errs (ev.address i)) (resultTerm A (vals (o.v.address i)))) m.errs mid →
      (∀ i ∈ indices o.v.shape, fin A (plusTerm A (mid (ev.address i))
        (q.e.map fun w => mid (w.address (alignIndex q.v.shape i)))) 2 = some (f i)) →
      Written (indices o.v.shape) ev.address f mid errs →
      Step (.iadd a b) m { m with vals := vals, errs := errs }
  | already {a b : Nat} {sel : Selection} {target : Option View} {m : State} {o q : Obj} :
      m.objs[a]? = some o → m.objs[b]? = some q → sel.Inside o.v.shape → Targets sel o.v target →
      Already target q.v → Step (.assign a sel target b) m m
  | assign {a b : Nat} {sel : Selection} {target : Option View} {m : State} {o q : Obj} {ev : View}
      {vals errs : Nat → ℚ} :
      m.objs[a]? = some o → m.objs[b]? = some q → sel.Inside o.v.shape → Targets sel o.v target →
      ¬ Already target q.v → Broadcasts sel.shape q.v.shape sel.shape →
      Separate (indices sel.shape) (fun i => o.v.address (sel.source i)) →
      Written (indices sel.shape) (fun i => o.v.address (sel.source i))
        (fun i => m.vals (q.v.address (alignIndex q.v.shape i))) m.vals vals →
      o.e = some ev →
      Written (indices sel.shape) (fun i => ev.address (sel.source i))
        (fun i => errAt (m.tensor q).e (alignIndex q.v.shape i)) m.errs errs →
      Step (.assign a sel target b) m { m with vals := vals, errs := errs }

def Reals.compute (x : Reals) : Operation → Option RTensor
  | .tensor shape y _ => some ⟨shape, y⟩
  | .add a b => (x.read a).bind fun X => (x.read b).map fun Y => X.add Y
  | .mul a k => (x.read a).map fun X => X.mul k.intended
  | .div a f => (x.read a).map fun X => X.div f
  | .matmul a k => (x.read a).map fun X => X.contract k.intended (matmul X.shape k.intended.shape)
  | .einsum eq a k => (x.read a).bind fun X => (parseEquation eq).map fun q =>
      X.contract k.intended (q.contraction X.shape k.intended.shape)
  | .sum a dims keepdim => (x.read a).map fun X => X.sum dims keepdim

/-- The tensor `r` is at `v`, and nothing else has changed. -/
structure Reals.Gains (x : Reals) (r : RTensor) (v : View) (y : Reals) : Prop where
  shape_eq : v.shape = r.shape
  written : Written (indices r.shape) v.address r.x x.cells y.cells
  objs_eq : y.objs = x.objs ++ [v]

inductive Reals.Step : Instruction → Reals → Reals → Prop
  | result {op : Operation} {v : View} {e : Option View} {x y : Reals} {r : RTensor} :
      x.compute op = some r → x.Gains r v y → Step (.result op v e) x y
  | same {a : Nat} {v : View} {e : Option View} {x : Reals} {o : View} :
      x.objs[a]? = some o → Step (.times a 1 v e) x { x with objs := x.objs ++ [o] }
  | times {a : Nat} {f : ℚ} {v : View} {e : Option View} {x y : Reals} {X : RTensor} : f ≠ 1 →
      x.read a = some X → x.Gains (X.mul (Constant.number f).intended) v y → Step (.times a f v e) x y
  | sign {s : Sign} {a : Nat} {v : View} {x y : Reals} {X : RTensor} :
      x.read a = some X → x.Gains ⟨X.shape, s.apply ∘ X.x⟩ v y → Step (.sign s a v) x y
  | take {t : Taking} {a : Nat} {v : View} {e : Option View} {x y : Reals} {X : RTensor} :
      x.read a = some X →
      x.Gains ⟨(t.selection X.shape).shape, X.x ∘ (t.selection X.shape).source⟩ v y → Step (.take t a v e) x y
  | iadd {a b : Nat} {x : Reals} {o q : View} {cells : Nat → ℚ} :
      x.objs[a]? = some o → x.objs[b]? = some q →
      Written (indices o.shape) o.address
        (fun i => x.cells (o.address i) + x.cells (q.address (alignIndex q.shape i))) x.cells cells →
      Step (.iadd a b) x { x with cells := cells }
  | assign {a b : Nat} {sel : Selection} {target : Option View} {x : Reals} {o q : View} {cells : Nat → ℚ} :
      x.objs[a]? = some o → x.objs[b]? = some q →
      Written (indices sel.shape) (fun i => o.address (sel.source i))
        (fun i => x.cells (q.address (alignIndex q.shape i))) x.cells cells →
      Step (.assign a sel target b) x { x with cells := cells }

end Onnxsim.Rigorous.Machine
