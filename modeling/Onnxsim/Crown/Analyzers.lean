import Mathlib.Data.List.MinMax
import Onnxsim.Lib.Results
import Onnxsim.Overflow.Operators

namespace Onnxsim.Crown.Boxes

open Overflow.Arrays

variable {𝕜 : Type}

abbrev Ext (𝕜 : Type) := WithBot (WithTop 𝕜)

def fin (v : 𝕜) : Ext 𝕜 := ((v : WithTop 𝕜) : Ext 𝕜)

def posInf : Ext 𝕜 := ((⊤ : WithTop 𝕜) : Ext 𝕜)

def finite? (x : Ext 𝕜) : Option 𝕜 := WithBot.recBotCoe none (fun y => WithTop.recTopCoe none some y) x

variable {x : Ext 𝕜} {v : 𝕜}

theorem eq_fin_of_finite? (h : finite? x = some v) : x = fin v := by
  induction x using WithBot.recBotCoe with
  | bot => cases h
  | coe y =>
    induction y using WithTop.recTopCoe with
    | top => cases h
    | coe w =>
      cases h
      rfl

variable [LinearOrder 𝕜]

theorem fin_le_fin {w : 𝕜} : fin v ≤ fin w ↔ v ≤ w := by
  rw [fin, fin, WithBot.coe_le_coe, WithTop.coe_le_coe]

theorem fin_le_posInf (v : 𝕜) : fin v ≤ posInf := by
  rw [fin, posInf, WithBot.coe_le_coe]
  exact le_top

abbrev Range (𝕜 : Type) := NDArray (Ext 𝕜) × NDArray (Ext 𝕜)

abbrev Ranges (𝕜 : Type) := String → Option (Range 𝕜)

scoped instance : Inhabited (Ext 𝕜) := ⟨⊥⟩

def scalar (x : Ext 𝕜) : NDArray (Ext 𝕜) := ⟨[], [x], rfl⟩

def zip {α β γ : Type} (f : α → β → γ) (a : NDArray α) (b : NDArray β) : Option (NDArray γ) :=
  if h : a.shape = b.shape then
    some ⟨a.shape, List.zipWith f a.data b.data, by
      rw [List.length_zipWith, a.length_data, b.length_data, h, Nat.min_self]⟩
  else none

def setAt {α : Type} (a : NDArray α) (j : Nat) (v : α) : NDArray α :=
  ⟨a.shape, a.data.set j v, (List.length_set).trans a.length_data⟩

def meet (a b : Range 𝕜) : Option (Range 𝕜) := do
  let lo ← zip max a.1 b.1
  let hi ← zip min a.2 b.2
  some (lo, hi)

def join (a b : Range 𝕜) : Option (Range 𝕜) := do
  let lo ← zip min a.1 b.1
  let hi ← zip max a.2 b.2
  some (lo, hi)

structure Encloses (b : Range 𝕜) (t : NDArray 𝕜) : Prop where
  shape : b.1.shape = t.shape ∧ b.2.shape = t.shape
  lo : List.Forall₂ (fun l v => l ≤ fin v) b.1.data t.data
  hi : List.Forall₂ (fun v h => fin v ≤ h) t.data b.2.data

def InRange (r : Range 𝕜) (t : NDArray 𝕜) : Prop :=
  ∃ lo hi, r.1.broadcastTo t.shape = some lo ∧ r.2.broadcastTo t.shape = some hi ∧ Encloses (lo, hi) t

variable {a b c : Range 𝕜} {t : NDArray 𝕜} {γ β : Type} {vs : List γ} {j : Nat} {α : Type}

theorem zip_eq_some {f : α → β → γ} {x : NDArray α} {y : NDArray β} {z : NDArray γ} (h : zip f x y = some z) :
    z.shape = x.shape ∧ x.shape = y.shape ∧ z.data = List.zipWith f x.data y.data := by
  rw [zip] at h
  split at h
  · next hshape =>
    cases h
    exact ⟨rfl, hshape, rfl⟩
  · cases h

variable {R S : α → γ → Prop} {xs ys : List α} {f : α → α → α}

theorem forall₂_zipWith_left {T : β → γ → Prop} {f : α → β → α} (hf : ∀ x y v, R x v → T y v → S (f x y) v)
    {ys : List β} (hx : List.Forall₂ R xs vs) (hy : List.Forall₂ T ys vs) : List.Forall₂ S (List.zipWith f xs ys) vs := by
  induction hx generalizing ys with
  | nil =>
    cases hy
    exact .nil
  | cons hxv _ ih =>
    cases hy with
    | cons hyv hys => exact .cons (hf _ _ _ hxv hyv) (ih hys)

theorem encloses_meet (h : meet a b = some c) (ha : Encloses a t) (hb : Encloses b t) : Encloses c t := by
  obtain ⟨lo, hlo, h⟩ := Option.bind_eq_some_iff.mp h
  obtain ⟨hi, hhi, h⟩ := Option.bind_eq_some_iff.mp h
  cases h
  obtain ⟨hloshape, -, hlodata⟩ := zip_eq_some hlo
  obtain ⟨hhishape, -, hhidata⟩ := zip_eq_some hhi
  refine ⟨⟨hloshape.trans ha.shape.1, hhishape.trans ha.shape.2⟩, ?_, ?_⟩
  · rw [hlodata]
    exact forall₂_zipWith_left (fun _ _ _ => max_le) ha.lo hb.lo
  · rw [hhidata]
    exact (forall₂_zipWith_left (fun _ _ _ => le_min) ha.hi.flip hb.hi.flip).flip

theorem forall₂_zipWith_of_left (hf : ∀ x y v, R x v → S (f x y) v) (hx : List.Forall₂ R xs vs)
    (hlen : xs.length = ys.length) :
    List.Forall₂ S (List.zipWith f xs ys) vs := by
  induction hx generalizing ys with
  | nil =>
    cases ys with
    | nil => exact .nil
    | cons y ys => cases hlen
  | cons hxv _ ih =>
    cases ys with
    | nil => cases hlen
    | cons y ys => exact .cons (hf _ _ _ hxv) (ih (Nat.succ.inj hlen))

theorem forall₂_zipWith_of_right (hf : ∀ x y v, R y v → S (f x y) v) (hy : List.Forall₂ R ys vs)
    (hlen : xs.length = ys.length) :
    List.Forall₂ S (List.zipWith f xs ys) vs := by
  rw [List.zipWith_comm]
  exact forall₂_zipWith_of_left (fun x y v h => hf y x v h) hy hlen.symm

theorem encloses_join (h : join a b = some c) (hab : Encloses a t ∨ Encloses b t) : Encloses c t := by
  obtain ⟨lo, hlo, h⟩ := Option.bind_eq_some_iff.mp h
  obtain ⟨hi, hhi, h⟩ := Option.bind_eq_some_iff.mp h
  cases h
  obtain ⟨hloshape, hloeq, hlodata⟩ := zip_eq_some hlo
  obtain ⟨hhishape, hhieq, hhidata⟩ := zip_eq_some hhi
  have hlolen : a.1.data.length = b.1.data.length := by rw [a.1.length_data, b.1.length_data, hloeq]
  have hhilen : a.2.data.length = b.2.data.length := by rw [a.2.length_data, b.2.length_data, hhieq]
  rcases hab with ha | hb
  · refine ⟨⟨hloshape.trans ha.shape.1, hhishape.trans ha.shape.2⟩, ?_, ?_⟩
    · rw [hlodata]
      exact forall₂_zipWith_of_left (R := fun l v => l ≤ fin v) (fun x y v hx => (min_le_left x y).trans hx) ha.lo hlolen
    · rw [hhidata]
      exact (forall₂_zipWith_of_left (fun x y v hx => hx.trans (le_max_left x y)) ha.hi.flip hhilen).flip
  · refine ⟨⟨hloshape.trans (hloeq.trans hb.shape.1), hhishape.trans (hhieq.trans hb.shape.2)⟩, ?_, ?_⟩
    · rw [hlodata]
      exact forall₂_zipWith_of_right (R := fun l v => l ≤ fin v) (fun x y v hy => (min_le_right x y).trans hy) hb.lo
        hlolen
    · rw [hhidata]
      exact (forall₂_zipWith_of_right (fun x y v hy => hy.trans (le_max_right x y)) hb.hi.flip hhilen).flip

theorem inRange_of_encloses (h : Encloses a t) : InRange a t := by
  refine ⟨a.1, a.2, ?_, ?_, h⟩
  · rw [← h.shape.1]
    exact a.1.broadcastTo_self
  · rw [← h.shape.2]
    exact a.2.broadcastTo_self

theorem forall₂_set (h : List.Forall₂ R xs vs) {x : α} (hx : ∀ v, vs[j]? = some v → R x v) :
    List.Forall₂ R (xs.set j x) vs := by
  induction h generalizing j with
  | nil => exact .nil
  | cons hab hrest ih =>
    cases j with
    | zero => exact .cons (hx _ rfl) hrest
    | succ j => exact .cons hab (ih fun v hv => hx v hv)

theorem encloses_setLo (h : Encloses a t) (hx : ∀ v, t.data[j]? = some v → x ≤ fin v) :
    Encloses (setAt a.1 j x, a.2) t :=
  ⟨h.shape, forall₂_set h.lo hx, h.hi⟩

theorem encloses_setHi (h : Encloses a t) (hx : ∀ v, t.data[j]? = some v → fin v ≤ x) :
    Encloses (a.1, setAt a.2 j x) t :=
  ⟨h.shape, h.lo, (forall₂_set h.hi.flip hx).flip⟩

theorem forall₂_getElem? (h : List.Forall₂ R xs vs) {x : α} {v : γ} (hx : xs[j]? = some x) (hv : vs[j]? = some v) :
    R x v := by
  induction h generalizing j with
  | nil => cases hx
  | cons hab _ ih =>
    cases j with
    | zero =>
      cases hx
      cases hv
      exact hab
    | succ j => exact ih hx hv

end Onnxsim.Crown.Boxes

namespace Onnxsim.Crown.Analyzers

open Overflow.Arrays Boxes

structure Node where
  opType : String
  input : String

/-- What the analysis takes from a model: its nodes with their first inputs, the graph inputs that are no
initializers, and the ranges its metadata declares. -/
structure Network (𝕜 : Type) where
  nodes : List Node
  inputs : List String
  annotated : Ranges 𝕜

/-- Relu branches: the node, the neuron, and whether its input is to be non-negative. -/
abbrev Forced := List (Nat × Nat × Bool)

/-- What an analyser works with: its boxes, its relaxations, and the tensors where a backward pass stops. -/
structure View (𝕜 ρ : Type) where
  boxes : Ranges 𝕜
  relaxes : Nat → Option ρ
  leaf : String → Bool

/-- The numeric part of the analysis. `visited` and `alphaVisited` are the nodes whose relaxations a backward pass and
the slope optimisation read. -/
structure Engine (𝕜 ρ : Type) where
  propagate : Ranges 𝕜 → Ranges 𝕜
  leaf : Ranges 𝕜 → String → Bool
  supported : View 𝕜 ρ → Nat → Bool
  relax : Node → Range 𝕜 → ρ
  upperOffset : ρ → List 𝕜
  unstable : ρ → List Bool
  visited : View 𝕜 ρ → String → List Nat
  crown : View 𝕜 ρ → String → Range 𝕜
  alphaVisited : View 𝕜 ρ → String → List Nat
  alpha : View 𝕜 ρ → String → Forced → Option (Range 𝕜)
  sensitivities : View 𝕜 ρ → String → Nat → (String → Option (List 𝕜)) × List (Nat × List 𝕜)

section

variable {𝕜 ρ α : Type}

structure Flags where
  refined : Bool
  infeasible : Bool

/-- The objects that analysers write to. -/
structure Heap (𝕜 ρ : Type) where
  flags : Nat → Flags
  boxes : Nat → Ranges 𝕜
  relaxes : Nat → Nat → Option ρ
  next : Nat

/-- An analyser: where its flags, `ib` and `_relax_cache` are, and what it never changes. -/
structure Analyzer (𝕜 : Type) where
  flags : Nat
  ib : Nat
  relaxCache : Nat
  intervals : Ranges 𝕜
  leaf : String → Bool

abbrev Exec (𝕜 ρ α : Type) := StateT (Heap 𝕜 ρ) (Except String) α

def fail (message : String) : Exec 𝕜 ρ α := fun _ => .error message

def orKeyError (name : String) : Option α → Exec 𝕜 ρ α
  | some a => pure a
  | none => fail ("KeyError: " ++ name)

def viewOf (an : Analyzer 𝕜) (h : Heap 𝕜 ρ) : View 𝕜 ρ := ⟨h.boxes an.ib, h.relaxes an.relaxCache, an.leaf⟩

def view (an : Analyzer 𝕜) : Exec 𝕜 ρ (View 𝕜 ρ) := fun h => .ok (viewOf an h, h)

def flagsOf (an : Analyzer 𝕜) : Exec 𝕜 ρ Flags := fun h => .ok (h.flags an.flags, h)

def setFlags (an : Analyzer 𝕜) (f : Flags) : Exec 𝕜 ρ Unit := fun h =>
  .ok ((), { h with flags := Function.update h.flags an.flags f })

def setBox (an : Analyzer 𝕜) (name : String) (b : Range 𝕜) : Exec 𝕜 ρ Unit := fun h =>
  .ok ((), { h with boxes := Function.update h.boxes an.ib (Function.update (h.boxes an.ib) name (some b)) })

def setRelax (an : Analyzer 𝕜) (idx : Nat) (r : Option ρ) : Exec 𝕜 ρ Unit := fun h =>
  .ok ((), { h with
    relaxes := Function.update h.relaxes an.relaxCache (Function.update (h.relaxes an.relaxCache) idx r) })

def allocate (f : Flags) (boxes : Ranges 𝕜) (relaxes : Nat → Option ρ) (intervals : Ranges 𝕜) (leaf : String → Bool) :
    Exec 𝕜 ρ (Analyzer 𝕜) := fun h =>
  .ok (⟨h.next, h.next, h.next, intervals, leaf⟩,
    ⟨Function.update h.flags h.next f, Function.update h.boxes h.next boxes, Function.update h.relaxes h.next relaxes,
      h.next + 1⟩)

end

variable {𝕜 ρ : Type} (engine : Engine 𝕜 ρ) (net : Network 𝕜)

/-- `_Analyzer(model, input_ranges)`. -/
def newAnalyzer (ranges : Ranges 𝕜) : Exec 𝕜 ρ (Analyzer 𝕜) :=
  let intervals := engine.propagate ranges
  allocate ⟨false, false⟩ intervals (fun _ => none) intervals fun n =>
    (intervals n).isSome && engine.leaf intervals n

/-- A copy whose boxes and relaxations can be restricted without touching `an`. -/
def clone (an : Analyzer 𝕜) : Exec 𝕜 ρ (Analyzer 𝕜) := do
  let v ← view an
  let f ← flagsOf an
  allocate ⟨f.refined, false⟩ v.boxes v.relaxes an.intervals an.leaf

def nodeAt (idx : Nat) : Exec 𝕜 ρ Node :=
  match net.nodes[idx]? with
  | some node => pure node
  | none => fail "IndexError"

/-- The relaxation of a node, from the cache or from the box of its input. -/
def relax (an : Analyzer 𝕜) (idx : Nat) : Exec 𝕜 ρ ρ := do
  let v ← view an
  match v.relaxes idx with
  | some r => pure r
  | none =>
    let node ← nodeAt net idx
    let b ← orKeyError node.input (v.boxes node.input)
    setRelax an idx (some (engine.relax node b))
    pure (engine.relax node b)

def relaxAll (an : Analyzer 𝕜) : List Nat → Exec 𝕜 ρ Unit
  | [] => pure ()
  | idx :: rest => do
    let _ ← relax engine net an idx
    relaxAll an rest

def tensorBounds (an : Analyzer 𝕜) (name : String) : Exec 𝕜 ρ (Range 𝕜) := do
  let v ← view an
  let _ ← orKeyError name (v.boxes name)
  relaxAll engine net an (engine.visited v name)
  let v ← view an
  pure (engine.crown v name)

section

variable [LinearOrder 𝕜] [Zero 𝕜]

/-- The box of a neuron's input with one side of zero cut off; none when nothing is left. -/
def cut (b : Range 𝕜) (flat : Nat) (sign : Bool) : Except String (Option (Range 𝕜)) :=
  match b.1.data[flat]?, b.2.data[flat]? with
  | some lo, some hi =>
    let lo' := if sign then max lo (fin 0) else lo
    let hi' := if sign then hi else min hi (fin 0)
    .ok (if hi' < lo' then none else some (setAt b.1 flat lo', setAt b.2 flat hi'))
  | _, _ => .error "IndexError"

def restrict (an : Analyzer 𝕜) (idx flat : Nat) (sign : Bool) : Exec 𝕜 ρ Bool := do
  let v ← view an
  let node ← nodeAt net idx
  let b ← orKeyError node.input (v.boxes node.input)
  match ← (StateT.lift (cut b flat sign) : Exec 𝕜 ρ (Option (Range 𝕜))) with
  | none => pure false
  | some b =>
    setBox an node.input b
    setRelax an idx none
    pure true

end

variable [Field 𝕜] [LinearOrder 𝕜]

def isNonlinear (opType : String) : Bool := opType = "Relu" || opType = "Sigmoid" || opType = "Tanh"

def clearlyEmpty (lo hi : Ext 𝕜) : Bool :=
  match finite? lo, finite? hi with
  | some l, some h => h + (1 + |l| + |h|) / (10 : ℕ) ^ 7 < l
  | _, _ => false

def maxElems : Nat := 4096

/-- One round of `refine`: the box of a nonlinear node's input, tightened by CROWN. -/
def refineNode (an : Analyzer 𝕜) (idx : Nat) (node : Node) : Exec 𝕜 ρ Unit := do
  let v ← view an
  if !isNonlinear node.opType || !engine.supported v idx then pure ()
  else
    let b ← orKeyError node.input (v.boxes node.input)
    if an.leaf node.input || maxElems < b.1.data.length then pure ()
    else
      let c ← tensorBounds engine net an node.input
      match meet b c with
      | none => fail "operands could not be broadcast together"
      | some b' =>
        let f ← flagsOf an
        setFlags an ⟨f.refined, f.infeasible || (List.zipWith clearlyEmpty b'.1.data b'.2.data).any id⟩
        setBox an node.input b'
        setRelax an idx none

def refineNodes (an : Analyzer 𝕜) : Nat → List Node → Exec 𝕜 ρ Unit
  | _, [] => pure ()
  | idx, node :: rest => do
    refineNode engine net an idx node
    refineNodes an (idx + 1) rest

def refine (an : Analyzer 𝕜) (force : Bool) : Exec 𝕜 ρ Unit := do
  let f ← flagsOf an
  if f.refined && !force then pure ()
  else
    setFlags an ⟨true, f.infeasible⟩
    refineNodes engine net an 0 net.nodes

def huge : 𝕜 := (10 : ℕ) ^ 30

def half : 𝕜 := 1 / (2 : ℕ)

def widening : 𝕜 := (64 : ℕ) / (2 : ℕ) ^ 52

def finishLo (x : Ext 𝕜) : Ext 𝕜 :=
  match finite? x with
  | some v => if v ≤ -huge / (10 : ℕ) then ⊥ else fin (v - widening * |v|)
  | none => x

def finishHi (x : Ext 𝕜) : Ext 𝕜 :=
  match finite? x with
  | some v => if huge / (10 : ℕ) ≤ v then posInf else fin (v + widening * |v|)
  | none => x

/-- Clean up, widen, and intersect with the bounds known before. -/
def finish (b known : Range 𝕜) : Option (Range 𝕜) := meet (b.1.map finishLo, b.2.map finishHi) known

def orBroadcastError {α : Type} : Option α → Exec 𝕜 ρ α
  | some a => pure a
  | none => fail "operands could not be broadcast together"

/-- CROWN bounds of a tensor, intersected with the interval bounds. -/
def final (an : Analyzer 𝕜) (name : String) : Exec 𝕜 ρ (Range 𝕜) := do
  let known ← orKeyError name (an.intervals name)
  if an.leaf name then pure known
  else
    let b ← tensorBounds engine net an name
    orBroadcastError (finish b known)

end Onnxsim.Crown.Analyzers

namespace Onnxsim.Crown.Frames

open Overflow.Arrays Boxes Analyzers

variable {𝕜 ρ : Type} {S T : Nat → Prop} {h h' h'' : Heap 𝕜 ρ} {an : Analyzer 𝕜}

/-- Of the objects that were there, only those in `S` may have changed. -/
structure Writes (S : Nat → Prop) (h h' : Heap 𝕜 ρ) : Prop where
  next : h.next ≤ h'.next
  flags : ∀ i < h.next, ¬ S i → h'.flags i = h.flags i
  boxes : ∀ i < h.next, ¬ S i → h'.boxes i = h.boxes i
  relaxes : ∀ i < h.next, ¬ S i → h'.relaxes i = h.relaxes i

theorem Writes.refl (h : Heap 𝕜 ρ) : Writes S h h :=
  ⟨Nat.le_refl _, fun _ _ _ => rfl, fun _ _ _ => rfl, fun _ _ _ => rfl⟩

theorem Writes.trans (hS : Writes S h h') (hT : Writes T h' h'') (hsub : ∀ i < h.next, T i → S i) : Writes S h h'' := by
  have hlt : ∀ i < h.next, i < h'.next := fun i hi => hi.trans_le hS.next
  have hnot : ∀ i < h.next, ¬ S i → ¬ T i := fun i hi hi' hti => hi' (hsub i hi hti)
  constructor
  · exact hS.next.trans hT.next
  · intro i hi hi'
    rw [hT.flags i (hlt i hi) (hnot i hi hi'), hS.flags i hi hi']
  · intro i hi hi'
    rw [hT.boxes i (hlt i hi) (hnot i hi hi'), hS.boxes i hi hi']
  · intro i hi hi'
    rw [hT.relaxes i (hlt i hi) (hnot i hi hi'), hS.relaxes i hi hi']

def At (an : Analyzer 𝕜) (i : Nat) : Prop := i = an.flags ∨ i = an.ib ∨ i = an.relaxCache

def Below (an : Analyzer 𝕜) (h : Heap 𝕜 ρ) : Prop := ∀ i, At an i → i < h.next

def Apart (a b : Analyzer 𝕜) : Prop := ∀ i, At a i → ¬ At b i

theorem Apart.symm {a b : Analyzer 𝕜} (hab : Apart a b) : Apart b a := fun i hb ha => hab i ha hb

theorem viewOf_eq (hw : Writes S h h') (hbelow : Below an h) (hout : ∀ i, At an i → ¬ S i) :
    viewOf an h' = viewOf an h := by
  have hib : At an an.ib := .inr (.inl rfl)
  have hrelax : At an an.relaxCache := .inr (.inr rfl)
  rw [viewOf, viewOf, hw.boxes _ (hbelow _ hib) (hout _ hib), hw.relaxes _ (hbelow _ hrelax) (hout _ hrelax)]

theorem below_later (hb : Below an h) (hw : Writes S h h') : Below an h' := fun i hi => (hb i hi).trans_le hw.next

def Fresh (an : Analyzer 𝕜) (h h' : Heap 𝕜 ρ) : Prop := Below an h' ∧ ∀ i, At an i → h.next ≤ i

theorem fresh_mono (hf : Fresh an h' h'') (hle : h.next ≤ h'.next) : Fresh an h h'' :=
  ⟨hf.1, fun i hi => hle.trans (hf.2 i hi)⟩

theorem writes_fresh (hw : Writes (fun _ => False) h h') (hf : Fresh an h h') (hk : Writes (At an) h' h'') :
    Writes (fun _ => False) h h'' := hw.trans hk fun i hi hat => absurd (hf.2 i hat) (not_le.mpr hi)

theorem setFlags_writes (an : Analyzer 𝕜) (f : Flags) (h : Heap 𝕜 ρ) :
    Writes (At an) h { h with flags := Function.update h.flags an.flags f } :=
  ⟨Nat.le_refl _, fun _ _ hi => Function.update_of_ne (fun he => hi (.inl he)) _ _, fun _ _ _ => rfl, fun _ _ _ => rfl⟩

theorem setBox_writes (an : Analyzer 𝕜) (boxes : Ranges 𝕜) (h : Heap 𝕜 ρ) :
    Writes (At an) h { h with boxes := Function.update h.boxes an.ib boxes } :=
  ⟨Nat.le_refl _, fun _ _ _ => rfl, fun _ _ hi => Function.update_of_ne (fun he => hi (.inr (.inl he))) _ _,
    fun _ _ _ => rfl⟩

theorem setRelax_writes (an : Analyzer 𝕜) (relaxes : Nat → Option ρ) (h : Heap 𝕜 ρ) :
    Writes (At an) h { h with relaxes := Function.update h.relaxes an.relaxCache relaxes } :=
  ⟨Nat.le_refl _, fun _ _ _ => rfl, fun _ _ _ => rfl,
    fun _ _ hi => Function.update_of_ne (fun he => hi (.inr (.inr he))) _ _⟩

theorem allocate_spec {f : Flags} {boxes intervals : Ranges 𝕜} {relaxes : Nat → Option ρ} {leaf : String → Bool}
    (hrun : allocate f boxes relaxes intervals leaf h = .ok (an, h')) :
    Writes (fun _ => False) h h' ∧ Fresh an h h' ∧
      viewOf an h' = ⟨boxes, relaxes, leaf⟩ ∧ h'.flags an.flags = f ∧ an.intervals = intervals := by
  cases hrun
  refine ⟨⟨Nat.le_succ _, ?_, ?_, ?_⟩, ⟨?_, ?_⟩, ?_, ?_, rfl⟩
  · exact fun i hi _ => Function.update_of_ne hi.ne _ _
  · exact fun i hi _ => Function.update_of_ne hi.ne _ _
  · exact fun i hi _ => Function.update_of_ne hi.ne _ _
  · rintro i (rfl | rfl | rfl) <;> exact Nat.lt_succ_self _
  · rintro i (rfl | rfl | rfl) <;> exact Nat.le_refl _
  · simp only [viewOf, Function.update_self]
  · exact Function.update_self _ _ _

variable [LinearOrder 𝕜]

abbrev Point (𝕜 : Type) := String → NDArray 𝕜

/-- What the network computes: the value of each tensor on the inputs that it accepts, and when a relaxation holds of
a node's input. -/
structure Meaning (𝕜 ρ : Type) where
  domain : Point 𝕜 → Prop
  value : Point 𝕜 → String → NDArray 𝕜
  valid : Node → ρ → NDArray 𝕜 → Prop

/-- An input lies in the ranges given for it, or else in those the model declares. -/
def InBox (net : Network 𝕜) (ranges : Ranges 𝕜) (p : Point 𝕜) : Prop :=
  ∀ n ∈ net.inputs, ∀ r, (ranges n).or (net.annotated n) = some r → InRange r (p n)

/-- What an analyser works with is right at a point. -/
structure Holds (net : Network 𝕜) (m : Meaning 𝕜 ρ) (v : View 𝕜 ρ) (p : Point 𝕜) : Prop where
  boxes : ∀ n b, v.boxes n = some b → Encloses b (m.value p n)
  relaxes : ∀ idx node r, v.relaxes idx = some r → net.nodes[idx]? = some node → m.valid node r (m.value p node.input)

def Satisfies [Zero 𝕜] (net : Network 𝕜) (m : Meaning 𝕜 ρ) (forced : Forced) (p : Point 𝕜) : Prop :=
  ∀ c ∈ forced, ∀ node, net.nodes[c.1]? = some node → ∀ x, (m.value p node.input).data[c.2.1]? = some x →
    if c.2.2 then 0 ≤ x else x ≤ 0

/-- Interval propagation, the relaxations and the backward passes are sound for what they are given. -/
structure Sound [Zero 𝕜] (engine : Engine 𝕜 ρ) (net : Network 𝕜) (m : Meaning 𝕜 ρ) : Prop where
  input : ∀ p, m.domain p → ∀ n ∈ net.inputs, m.value p n = p n
  propagate : ∀ ranges p, m.domain p → InBox net ranges p → ∀ n b, engine.propagate ranges n = some b →
    Encloses b (m.value p n)
  relax : ∀ node ∈ net.nodes, ∀ b t, Encloses b t → m.valid node (engine.relax node b) t
  crown : ∀ v p, m.domain p → Holds net m v p → ∀ n b, v.boxes n = some b → Encloses (engine.crown v n) (m.value p n)
  alpha : ∀ v p, m.domain p → Holds net m v p → ∀ forced, Satisfies net m forced p → ∀ n b,
    engine.alpha v n forced = some b → Encloses b (m.value p n)

end Onnxsim.Crown.Frames
