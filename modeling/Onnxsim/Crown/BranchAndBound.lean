import Onnxsim.Crown.Analyzers
import Onnxsim.Lib.Dicts

namespace Onnxsim.Crown.BranchAndBound

open Lib.Dicts Boxes Analyzers

inductive Split where
  | input
  | relu
  | auto
deriving DecidableEq

inductive LeafMethod where
  | crown
  | alpha
  | beta
deriving DecidableEq

structure Settings (𝕜 : Type) where
  inputRanges : Ranges 𝕜
  names : List String
  split : Split
  leafMethod : LeafMethod
  target : Option (Ranges 𝕜)
  tol : 𝕜

/-- One cell of the partition: an analyser restricted to it, and its bounds. -/
structure Region (𝕜 : Type) where
  an : Analyzer 𝕜
  ranges : Ranges 𝕜
  forced : Forced
  vals : Dict String (Range 𝕜)
  width : 𝕜
  violation : 𝕜
  stuck : Bool

/-- A cell that a split asked for, and its region unless it was found to be empty. -/
structure Child (𝕜 : Type) where
  ranges : Ranges 𝕜
  forced : Forced
  region : Option (Region 𝕜)

section

variable {𝕜 : Type} [Field 𝕜] [LinearOrder 𝕜]

/-- The greatest of the numbers, an infinity or an undefined difference counting as `huge`. -/
def finiteMax (l : List (Option 𝕜)) : 𝕜 := ((l.map fun x => x.getD huge).max?).getD 0

/-- `a - b`, where it is finite. -/
def difference (a b : Ext 𝕜) : Option 𝕜 := do
  let x ← finite? a
  let y ← finite? b
  some (x - y)

/-- `max (a - b) 0`, where it is finite. -/
def excess (a b : Ext 𝕜) : Option 𝕜 :=
  match finite? a, finite? b with
  | some x, some y => some (max (x - y) 0)
  | _, _ => if a < b then some 0 else none

def widths (b : Range 𝕜) : List (Option 𝕜) := List.zipWith difference b.2.data b.1.data

def total (x y : Option 𝕜) : Option 𝕜 := do
  let p ← x
  let q ← y
  some (p + q)

/-- By how much each element of `b` leaves the target. -/
def violations (target b : Range 𝕜) : Option (List (Option 𝕜)) := do
  let lo ← target.1.broadcastTo b.1.shape
  let hi ← target.2.broadcastTo b.2.shape
  some (List.zipWith total (List.zipWith excess lo.data b.1.data) (List.zipWith excess b.2.data hi.data))

def argmax : List 𝕜 → Option (Nat × 𝕜)
  | [] => none
  | x :: xs =>
    match argmax xs with
    | none => some (0, x)
    | some (j, y) => if y ≤ x then some (0, x) else some (j + 1, y)

end

section

variable {𝕜 ρ : Type} [Field 𝕜] [LinearOrder 𝕜] (engine : Engine 𝕜 ρ) (net : Network 𝕜) (s : Settings 𝕜)

def restrictAll (an : Analyzer 𝕜) : Forced → Exec 𝕜 ρ Bool
  | [] => pure true
  | (idx, flat, sign) :: rest => do
    if ← restrict net an idx flat sign then restrictAll an rest else pure false

def refineAgain (an : Analyzer 𝕜) (forced : Forced) : Exec 𝕜 ρ Unit :=
  if forced.isEmpty then pure () else refine engine net an true

/-- An analyser for the input sub-box `ranges` with the Relu branches `forced`. -/
def build (ranges : Ranges 𝕜) (forced : Forced) : Exec 𝕜 ρ (Option (Analyzer 𝕜)) := do
  let an ← newAnalyzer engine ranges
  refine engine net an false
  if ← restrictAll net an forced then
    refineAgain engine net an forced
    let f ← flagsOf an
    pure (if f.infeasible then none else some an)
  else pure none

def evaluateOne (an : Analyzer 𝕜) (forced : Forced) (name : String) : Exec 𝕜 ρ (Range 𝕜) := do
  let b ← final engine net an name
  if s.leafMethod = .crown || an.leaf name then pure b
  else
    let v ← view an
    relaxAll engine net an (engine.alphaVisited v name)
    let v ← view an
    match engine.alpha v name (if s.leafMethod = .beta then forced else []) with
    | none => pure b
    | some a =>
      let c ← orBroadcastError (finish a b)
      orBroadcastError (meet b c)

def evaluate (an : Analyzer 𝕜) (forced : Forced) :
    List String → Dict String (Range 𝕜) → Exec 𝕜 ρ (Dict String (Range 𝕜))
  | [], out => pure out
  | name :: rest, out => do
    let b ← evaluateOne engine net s an forced name
    evaluate an forced rest (out.set name b)

def violationOf (name : String) (b : Range 𝕜) : Exec 𝕜 ρ (List (Option 𝕜)) :=
  match s.target with
  | none => pure []
  | some target => do
    let t ← orKeyError name (target name)
    orBroadcastError (violations t b)

def violationMaxima : List (String × Range 𝕜) → Exec 𝕜 ρ (List 𝕜)
  | [] => pure []
  | (name, b) :: rest => do
    let l ← violationOf s name b
    let ms ← violationMaxima rest
    pure (finiteMax l :: ms)

def maxOf (l : List 𝕜) : Exec 𝕜 ρ 𝕜 :=
  match l.max? with
  | some m => pure m
  | none => fail "max() arg is an empty sequence"

def violation (vals : Dict String (Range 𝕜)) : Exec 𝕜 ρ 𝕜 :=
  if s.target.isSome then do
    let maxima ← violationMaxima s vals.entries
    maxOf maxima
  else pure 0

def region (an : Analyzer 𝕜) (ranges : Ranges 𝕜) (forced : Forced) : Exec 𝕜 ρ (Region 𝕜) := do
  let vals ← evaluate engine net s an forced s.names .empty
  let width ← maxOf (vals.entries.map fun e => finiteMax (widths e.2))
  let violation ← violation s vals
  pure ⟨an, ranges, forced, vals, width, violation, false⟩

def undecided (r : Region 𝕜) : Bool := s.target.isNone || s.tol < r.violation

end

section

variable {𝕜 ρ : Type} [Field 𝕜] [LinearOrder 𝕜] (engine : Engine 𝕜 ρ) (net : Network 𝕜) (s : Settings 𝕜)

/-- The better of what was found and a candidate that has to be strictly better. -/
def better {α : Type} (best : Option (𝕜 × α)) (score : 𝕜) (a : α) : Option (𝕜 × α) :=
  match best with
  | none => some (score, a)
  | some b => if b.1 < score then some (score, a) else some b

def excesses (name : String) (b : Range 𝕜) : Exec 𝕜 ρ (List (Option 𝕜)) :=
  if s.target.isNone then pure (widths b) else violationOf s name b

/-- The output element to tighten: the widest or most violating one. -/
def worst (r : Region 𝕜) : List (String × Range 𝕜) → Option (𝕜 × String × Nat) → Exec 𝕜 ρ (Option (String × Nat))
  | [], best => pure (best.bind fun b => if b.1 ≤ 0 ∨ huge ≤ b.1 then none else some b.2)
  | (name, b) :: rest, best =>
    if r.an.leaf name then worst r rest best
    else do
      let l ← excesses s name b
      match argmax (l.map fun x => x.getD huge) with
      | none => fail "attempt to get argmax of an empty sequence"
      | some (k, v) => worst r rest (better best v (name, k))

/-- What a backward pass from one output element says about the inputs and the Relus. -/
def sensitivities (an : Analyzer 𝕜) (name : String) (k : Nat) :
    Exec 𝕜 ρ ((String → Option (List 𝕜)) × List (Nat × List 𝕜)) := do
  let v ← view an
  relaxAll engine net an (engine.visited v name)
  let v ← view an
  pure (engine.sensitivities v name k)

def scores (infl : List 𝕜) (r : ρ) : List 𝕜 :=
  List.zipWith (fun x u => if u then x else 0) (List.zipWith (fun a b => a * b) infl (engine.upperOffset r))
    (engine.unstable r)

def chooseNeuron (an : Analyzer 𝕜) : List (Nat × List 𝕜) → Option (𝕜 × Nat × Nat) → Exec 𝕜 ρ (Option (𝕜 × Nat × Nat))
  | [], best => pure best
  | (idx, infl) :: rest, best => do
    let r ← relax engine net an idx
    match argmax (scores engine infl r) with
    | none => fail "attempt to get argmax of an empty sequence"
    | some (j, score) => chooseNeuron an rest (if 0 < score then better best score (idx, j) else best)

def branch (r : Region 𝕜) (idx j : Nat) (sign : Bool) : Exec 𝕜 ρ (Child 𝕜) := do
  let forced := r.forced ++ [(idx, j, sign)]
  let an ← clone r.an
  if ← restrict net an idx j sign then
    refine engine net an true
    let f ← flagsOf an
    if f.infeasible then pure ⟨r.ranges, forced, none⟩
    else
      let c ← region engine net s an r.ranges forced
      pure ⟨r.ranges, forced, some c⟩
  else pure ⟨r.ranges, forced, none⟩

def splitRelu (r : Region 𝕜) : Exec 𝕜 ρ (Option (List (Child 𝕜))) := do
  match ← worst s r r.vals.entries none with
  | none => pure none
  | some (name, k) =>
    let sens ← sensitivities engine net r.an name k
    match ← chooseNeuron engine net r.an sens.2 none with
    | none => pure none
    | some (_, idx, j) =>
      let c₁ ← branch engine net s r idx j true
      let c₂ ← branch engine net s r idx j false
      pure (some [c₁, c₂])

/-- The input element of largest influence times width, and the widest one. -/
def chooseInput (ranges : Ranges 𝕜) (infl : String → Option (List 𝕜)) :
    List String → Option (𝕜 × String × Nat) → Option (𝕜 × String × Nat) → Option (String × Nat)
  | [], best, fallback => (best.or fallback).map Prod.snd
  | name :: rest, best, fallback =>
    match ranges name with
    | none => chooseInput ranges infl rest best fallback
    | some b =>
      let w := (widths b).map fun x => x.getD (-1)
      match argmax w with
      | none => chooseInput ranges infl rest best fallback
      | some (wj, width) =>
        if width ≤ 0 then chooseInput ranges infl rest best fallback
        else
          let best :=
            match infl name with
            | none => best
            | some f =>
              match argmax (List.zipWith (fun x v => if 0 < v then x * v else -1) f w) with
              | none => best
              | some (j, score) => if 0 < score then better best score (name, j) else best
          chooseInput ranges infl rest best (better fallback width (name, wj))

def middle (lo hi : Ext 𝕜) : Ext 𝕜 :=
  match finite? lo, finite? hi with
  | some l, some h => fin (half * (l + h))
  | _, _ => lo

def halves (b : Range 𝕜) (j : Nat) : Range 𝕜 × Range 𝕜 :=
  let mid := middle (b.1.data.getD j ⊥) (b.2.data.getD j ⊥)
  ((b.1, setAt b.2 j mid), (setAt b.1 j mid, b.2))

def half (r : Region 𝕜) (name : String) (b : Range 𝕜) : Exec 𝕜 ρ (Child 𝕜) := do
  let ranges := Function.update r.ranges name (some b)
  match ← build engine net ranges r.forced with
  | none => pure ⟨ranges, r.forced, none⟩
  | some an =>
    let c ← region engine net s an ranges r.forced
    pure ⟨ranges, r.forced, some c⟩

/-- How much each input element matters for the worst output element. -/
def inputInfluence (r : Region 𝕜) : Exec 𝕜 ρ (String → Option (List 𝕜)) := do
  match ← worst s r r.vals.entries none with
  | none => pure fun _ => none
  | some (name, k) =>
    let sens ← sensitivities engine net r.an name k
    pure sens.1

def splitInput (r : Region 𝕜) : Exec 𝕜 ρ (Option (List (Child 𝕜))) := do
  let infl ← inputInfluence engine net s r
  match chooseInput r.ranges infl net.inputs none none with
  | none => pure none
  | some (name, j) =>
    let b ← orKeyError name (r.ranges name)
    let c₁ ← half engine net s r name (halves b j).1
    let c₂ ← half engine net s r name (halves b j).2
    pure (some [c₁, c₂])

def reluFirst (r : Region 𝕜) : Exec 𝕜 ρ (Option (List (Child 𝕜))) :=
  if s.split = .input then pure none else splitRelu engine net s r

def trySplit (r : Region 𝕜) : Exec 𝕜 ρ (Option (List (Child 𝕜))) := do
  match ← reluFirst engine net s r with
  | some cs => pure (some cs)
  | none => if s.split = .relu then pure none else splitInput engine net s r

end

variable {𝕜 ρ : Type} [Field 𝕜] [LinearOrder 𝕜] (engine : Engine 𝕜 ρ) (net : Network 𝕜) (s : Settings 𝕜)

/-- The search between two rounds; `dropped` are the cells whose regions were found to be empty. -/
structure State (𝕜 ρ : Type) where
  heap : Heap 𝕜 ρ
  root : Region 𝕜
  regions : List (Region 𝕜)
  evaluations : Nat
  dropped : List (Ranges 𝕜 × Forced)

/-- The root analyser and its region, over the boxes of the inputs that have one. -/
def start : Exec 𝕜 ρ (Region 𝕜) := do
  match ← build engine net s.inputRanges [] with
  | none => fail "AssertionError"
  | some an =>
    let v ← view an
    region engine net s an (fun n => if n ∈ net.inputs then v.boxes n else none) []

def emptyHeap : Heap 𝕜 ρ := ⟨fun _ => ⟨false, false⟩, fun _ _ => none, fun _ _ => none, 0⟩

def initial : Except String (State 𝕜 ρ) :=
  match start engine net s emptyHeap with
  | .error e => .error e
  | .ok (root, h) => .ok ⟨h, root, [root], 1, []⟩

def isCandidate (r : Region 𝕜) : Bool := !r.stuck && undecided s r

def candidates (st : State 𝕜 ρ) : List Nat :=
  (List.range st.regions.length).filter fun i => (st.regions[i]?).any (isCandidate s)

/-- Split the region at place `i`. -/
def splitAt (i : Nat) (st : State 𝕜 ρ) : Except String (State 𝕜 ρ) :=
  match st.regions[i]? with
  | none => .error "ValueError"
  | some r =>
    match trySplit engine net s r st.heap with
    | .error e => .error e
    | .ok (none, h) => .ok { st with heap := h, regions := st.regions.set i { r with stuck := true } }
    | .ok (some cs, h) => .ok
        { st with
          heap := h
          regions := st.regions.eraseIdx i ++ cs.filterMap Child.region
          evaluations := st.evaluations + 2
          dropped := st.dropped ++ (cs.filter fun c => c.region.isNone).map fun c => (c.ranges, c.forced) }

/-- The candidate of the greatest key, the first of several. -/
def choose (st : State 𝕜 ρ) : List Nat → Option (𝕜 × Nat) → Option Nat
  | [], best => best.map Prod.snd
  | i :: rest, best =>
    match st.regions[i]? with
    | none => choose st rest best
    | some r => choose st rest (better best (if s.target.isSome then r.violation else r.width) i)

/-- The search loop; `outOfTime` is the clock, read before each round. -/
def loop (budget : Nat) (outOfTime : Nat → Bool) : Nat → Nat → State 𝕜 ρ → Except String (State 𝕜 ρ)
  | 0, _, st => .ok st
  | fuel + 1, k, st =>
    if budget < st.evaluations + 2 || outOfTime k then .ok st
    else
      match choose s st (candidates s st) none with
      | none => .ok st
      | some i => do
        let st ← splitAt engine net s i st
        loop budget outOfTime fuel (k + 1) st

def hull : List (Range 𝕜) → Option (Range 𝕜)
  | [] => none
  | [b] => some b
  | b :: rest => do
    let c ← hull rest
    join b c

/-- The reported bounds of an output: the union hull intersected with the root bound. -/
def bound (st : State 𝕜 ρ) (name : String) : Except String (Range 𝕜) :=
  match st.root.vals.get? name with
  | none => .error ("KeyError: " ++ name)
  | some rootBound =>
    if st.regions.isEmpty then .ok rootBound
    else
      match st.regions.mapM fun r => r.vals.get? name with
      | none => .error ("KeyError: " ++ name)
      | some bs =>
        match (hull bs).bind fun b => meet b rootBound with
        | none => .error "operands could not be broadcast together"
        | some b => .ok b

def proved (st : State 𝕜 ρ) : Option Bool :=
  if s.target.isSome then some (st.regions.all fun r => !undecided s r) else none

end Onnxsim.Crown.BranchAndBound
