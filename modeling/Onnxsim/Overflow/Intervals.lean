import Mathlib.Data.List.MinMax
import Mathlib.Data.String.Basic
import Onnxsim.Lib.OrderedMaps
import Onnxsim.Lib.Results
import Onnxsim.Overflow.Operators
import Onnxsim.ShapeRanges.Broadcasting

namespace Onnxsim.Overflow.Intervals

open List Lib.OrderedMaps Lib.Results
open Arrays Operators ShapeRanges.Dims

abbrev Ext := WithBot (WithTop ℚ)

def fin (q : ℚ) : Ext := ((q : WithTop ℚ) : Ext)

def finite? (x : Ext) : Option ℚ := WithBot.recBotCoe none (fun y => WithTop.recTopCoe none some y) x

variable {x : Ext} {q v : ℚ} {l : List Ext}

theorem eq_fin_of_finite? (h : finite? x = some q) : x = fin q := by
  induction x using WithBot.recBotCoe with
  | bot => cases h
  | coe y =>
    induction y using WithTop.recTopCoe with
    | top => cases h
    | coe p =>
      cases h
      rfl

theorem fin_le_fin {p : ℚ} : fin p ≤ fin q ↔ p ≤ q := by
  rw [fin, fin, WithBot.coe_le_coe, WithTop.coe_le_coe]

abbrev Range := NDArray Ext × NDArray Ext

def scalar (x : Ext) : NDArray Ext := ⟨[], [x], rfl⟩

/-- What the analysis knows of a tensor: the bounds of each element, or a ranged shape and one pair of bounds
for all elements. -/
inductive Enclosure where
  | static (lo hi : NDArray Ext)
  | ranged (shape : Shape) (hull : Ext × Ext)

variable {t : Tensor} {lo hi : NDArray Ext} {e : Enclosure}

def Enclosure.isRanged : Enclosure → Bool
  | .static _ _ => false
  | .ranged _ _ => true

/-- The least and the greatest bound; of no elements, zero. -/
def Enclosure.hull : Enclosure → Ext × Ext
  | .static lo hi => ((lo.data.min?).getD (fin 0), (hi.data.max?).getD (fin 0))
  | .ranged _ h => h

def isStatic (shape : Shape) : Bool := shape.all Dim.isExact

def Allows (shape : Shape) (actual : List Nat) : Prop := List.Forall₂ (fun d n => d.contains n = true) shape actual

def Within (t : Tensor) (lo hi : NDArray Ext) : Prop :=
  List.Forall₂ (fun l v => l ≤ fin v) lo.data t.data ∧ List.Forall₂ (fun v h => fin v ≤ h) t.data hi.data

def Enclosure.Encloses (t : Tensor) : Enclosure → Prop
  | .static lo hi => lo.shape = t.shape ∧ Within t lo hi
  | .ranged shape hull => Allows shape t.shape ∧ ∀ v ∈ t.data, hull.1 ≤ fin v ∧ fin v ≤ hull.2

theorem min?_le {m : Ext} (h : l.min? = some m) (hx : x ∈ l) : m ≤ x :=
  (min?_eq_some_iff.mp h).2 x hx

theorem le_max? {m : Ext} (h : l.max? = some m) (hx : x ∈ l) : x ≤ m :=
  (max?_eq_some_iff.mp h).2 x hx

theorem exists_min? (hx : x ∈ l) : ∃ m, l.min? = some m := by
  cases h : l.min? with
  | none =>
    rw [min?_eq_none_iff.mp h] at hx
    cases hx
  | some m => exact ⟨m, rfl⟩

theorem exists_max? (hx : x ∈ l) : ∃ m, l.max? = some m := by
  cases h : l.max? with
  | none =>
    rw [max?_eq_none_iff.mp h] at hx
    cases hx
  | some m => exact ⟨m, rfl⟩

theorem hull_within (h : Within t lo hi) (hv : v ∈ t.data) :
    (lo.data.min?).getD (fin 0) ≤ fin v ∧ fin v ≤ (hi.data.max?).getD (fin 0) := by
  obtain ⟨l, hl, hlv⟩ := forall₂_exists_left h.1 hv
  obtain ⟨u, hu, hvu⟩ := forall₂_exists_left (List.Forall₂.flip h.2) hv
  obtain ⟨m, hm⟩ := exists_min? hl
  obtain ⟨n, hn⟩ := exists_max? hu
  rw [hm, hn]
  exact ⟨(min?_le hm hl).trans hlv, hvu.trans (le_max? hn hu)⟩

theorem mem_hull (h : e.Encloses t) (hv : v ∈ t.data) : e.hull.1 ≤ fin v ∧ fin v ≤ e.hull.2 := by
  cases e with
  | static lo hi => exact hull_within h.2 hv
  | ranged shape hull => exact h.2 v hv

structure GraphInput where
  name : String
  dims : Option Shape

/-- A model with what shape inference finds out about it and the ranges its metadata declares. -/
structure Model where
  nodes : List Node
  initializers : List (String × Tensor)
  inputs : List GraphInput
  annotated : SortedMap String Range
  elem : String → Option DataType
  inferred : String → Option (List Nat)

def Model.consts (m : Model) : SortedMap String Tensor := SortedMap.ofList m.initializers

def defaultInput (t : DataType) : Option (Int × Int) := if t = .bool then some (0, 1) else native t

def intRange (r : Int × Int) : Range := (scalar (fin r.1), scalar (fin r.2))

/-- The given ranges, and for an integer input without any the range of its type. -/
def feeds (m : Model) (inputRanges : SortedMap String Range) : SortedMap String Range :=
  m.inputs.foldl (fun feeds vi =>
    if (feeds.find? vi.name).isSome ∨ (m.annotated.find? vi.name).isSome ∨ (m.consts.find? vi.name).isSome then feeds
    else
      match (m.elem vi.name).bind defaultInput with
      | some r => feeds.insert vi.name (intRange r)
      | none => feeds) inputRanges

def boxOf (m : Model) (feeds : SortedMap String Range) (name : String) : Range :=
  ((feeds.find? name).or (m.annotated.find? name)).getD (scalar ⊥, scalar ((⊤ : WithTop ℚ) : Ext))

/-- The transfer function of a node, from whether each input is derived from a data-dependent one and from
what is known of it, to what is known of each output and whether the outputs are derived; none where it
leaves an output unknown. -/
abbrev Rule := Node → List Bool → List (Option Enclosure) → List (Option Enclosure) × Bool

structure State where
  result : SortedMap String Enclosure
  derived : List String

def rangedInput (dims : Shape) (range : Range) : Except String Enclosure :=
  match range.1.data.min?, range.2.data.max? with
  | some lo, some hi => .ok (.ranged dims (lo, hi))
  | _, _ => .error "zero-size array to reduction operation"

def staticInput (shape : List Nat) (range : Range) : Except String Enclosure :=
  match range.1.broadcastTo shape, range.2.broadcastTo shape with
  | some lo, some hi => .ok (.static lo hi)
  | _, _ => .error "operands could not be broadcast together"

def inputEnclosure (shape : Option (List Nat)) (dims : Option Shape) (range : Range) :
    Except String (Option Enclosure) :=
  match dims.filter fun d => !isStatic d with
  | some d => (rangedInput d range).map some
  | none =>
    match shape with
    | some shape => (staticInput shape range).map some
    | none => .ok none

def addInput (m : Model) (feeds : SortedMap String Range) (result : SortedMap String Enclosure)
    (vi : GraphInput) : Except String (SortedMap String Enclosure) :=
  if (m.consts.find? vi.name).isSome then .ok result
  else do
    match ← inputEnclosure (m.inferred vi.name) vi.dims (boxOf m feeds vi.name) with
    | none => .ok result
    | some e => .ok (result.insert vi.name e)

/-- Initializers are points; then the inputs that are no initializer. -/
def startState (m : Model) (feeds : SortedMap String Range) : Except String (SortedMap String Enclosure) :=
  m.inputs.foldlM (addInput m feeds) (m.consts.mapVals fun t => .static (t.map fin) (t.map fin))

def setOutputs (result : SortedMap String Enclosure) : List String → List (Option Enclosure) →
    SortedMap String Enclosure
  | o :: os, e :: es =>
    match e with
    | some e => setOutputs (if o = "" then result else result.insert o e) os es
    | none => setOutputs result os es
  | _, _ => result

def lookup (result : SortedMap String Enclosure) (x : String) : Option Enclosure :=
  if x = "" then none else result.find? x

def stepNode (rule : Rule) (s : State) (node : Node) : State :=
  let outs := node.outputs.filter fun o => o ≠ ""
  let derived :=
    if node.inputs.any fun x => x ∈ s.derived || (lookup s.result x).any Enclosure.isRanged then s.derived ++ outs
    else s.derived
  if node.inputs.any fun x => x ≠ "" && (s.result.find? x).isNone then ⟨s.result, derived⟩
  else
    let out := rule node (node.inputs.map fun x => x ∈ derived) (node.inputs.map (lookup s.result))
    ⟨setOutputs s.result node.outputs out.1, if out.2 then derived ++ outs else derived⟩

def propagate (rule : Rule) (m : Model) (feeds : SortedMap String Range) :
    Except String (SortedMap String Enclosure) := do
  let start ← startState m feeds
  .ok (m.nodes.foldl (stepNode rule) ⟨start, []⟩).result

def valueOf (env : String → Option Tensor) (x : String) : Option Tensor := if x = "" then none else env x

/-- The tensors of one run: each output of a node is what the node computes from its inputs. -/
structure Runs (other : Node → List (Option Tensor) → List Tensor) (m : Model) (env : String → Option Tensor) :
    Prop where
  consts : ∀ n t, m.consts.find? n = some t → env n = some t
  nodes : ∀ node ∈ m.nodes, ∀ (k : Nat) o, node.outputs[k]? = some o → o ≠ "" →
    env o = (eval other node (node.inputs.map (valueOf env)))[k]?

/-- Every input that is no initializer has a value of its declared shape inside its range. -/
def InBox (m : Model) (feeds : SortedMap String Range) (env : String → Option Tensor) : Prop :=
  ∀ vi ∈ m.inputs, m.consts.find? vi.name = none → ∃ t, env vi.name = some t ∧
    (∀ d, vi.dims = some d → Allows d t.shape) ∧ (∀ s, m.inferred vi.name = some s → t.shape = s) ∧
    ∃ lo hi, (boxOf m feeds vi.name).1.broadcastTo t.shape = some lo ∧
      (boxOf m feeds vi.name).2.broadcastTo t.shape = some hi ∧ Within t lo hi

def Known (env : String → Option Tensor) (result : SortedMap String Enclosure) : Prop :=
  ∀ n e, result.find? n = some e → ∃ t, env n = some t ∧ e.Encloses t

/-- What is known of an input of a node is so; nothing is known of an omitted one only. -/
def EnclosesInput : Option Enclosure → Option Tensor → Prop
  | none, none => True
  | some e, some t => e.Encloses t
  | _, _ => False

/-- From what holds of the inputs, the transfer function encloses what the operator computes. -/
def Exact (other : Node → List (Option Tensor) → List Tensor) (rule : Rule) (node : Node)
    (vals : List (Option Tensor)) : Prop :=
  ∀ derived ins, List.Forall₂ EnclosesInput ins vals → ∀ (k : Nat) e,
    (rule node derived ins).1[k]? = some (some e) → ∃ t, (eval other node vals)[k]? = some t ∧ e.Encloses t

def ExactRules (other : Node → List (Option Tensor) → List Tensor) (rule : Rule) (m : Model)
    (env : String → Option Tensor) : Prop :=
  ∀ node ∈ m.nodes, Exact other rule node (node.inputs.map (valueOf env))

variable {other : Node → List (Option Tensor) → List Tensor} {rule : Rule} {m : Model} {ranges : SortedMap String Range}
  {env : String → Option Tensor}

theorem encloses_point (t : Tensor) : (Enclosure.static (t.map fin) (t.map fin)).Encloses t := by
  refine ⟨rfl, ?_, ?_⟩
  · exact forall₂_map_left_iff.mpr (forall₂_same.mpr fun _ _ => le_rfl)
  · exact forall₂_map_right_iff.mpr (forall₂_same.mpr fun _ _ => le_rfl)

theorem map_eq_ok_some {α : Type} {x : Except String α} {a : α} (h : x.map some = .ok (some a)) : x = .ok a := by
  cases x with
  | error e => cases h
  | ok b =>
    cases h
    rfl

variable {range : Range} {result : SortedMap String Enclosure}

theorem encloses_ranged {dims : Shape} (h : rangedInput dims range = .ok e) (hdims : Allows dims t.shape)
    (hlo : range.1.broadcastTo t.shape = some lo) (hhi : range.2.broadcastTo t.shape = some hi) (hin : Within t lo hi) :
    e.Encloses t := by
  rw [rangedInput] at h
  cases hm : range.1.data.min? with
  | none =>
    rw [hm] at h
    cases h
  | some m =>
    cases hn : range.2.data.max? with
    | none =>
      rw [hm, hn] at h
      cases h
    | some n =>
      rw [hm, hn] at h
      cases h
      refine ⟨hdims, fun v hv => ?_⟩
      obtain ⟨l, hl, hlv⟩ := forall₂_exists_left hin.1 hv
      obtain ⟨u, hu, hvu⟩ := forall₂_exists_left (List.Forall₂.flip hin.2) hv
      have hlmem := (NDArray.mem_broadcastTo hlo).2 l hl
      have humem := (NDArray.mem_broadcastTo hhi).2 u hu
      exact ⟨(min?_le hm hlmem).trans hlv, hvu.trans (le_max? hn humem)⟩

theorem encloses_static (h : staticInput t.shape range = .ok e) (hlo : range.1.broadcastTo t.shape = some lo)
    (hhi : range.2.broadcastTo t.shape = some hi) (hin : Within t lo hi) : e.Encloses t := by
  rw [staticInput, hlo, hhi] at h
  cases h
  exact ⟨(NDArray.mem_broadcastTo hlo).1, hin⟩

theorem encloses_input {shape : Option (List Nat)} {dims : Option Shape}
    (h : inputEnclosure shape dims range = .ok (some e)) (hdims : ∀ d, dims = some d → Allows d t.shape)
    (hshape : ∀ s, shape = some s → t.shape = s) (hlo : range.1.broadcastTo t.shape = some lo)
    (hhi : range.2.broadcastTo t.shape = some hi) (hin : Within t lo hi) : e.Encloses t := by
  unfold inputEnclosure at h
  cases hd : dims.filter fun d => !isStatic d with
  | some d =>
    rw [hd] at h
    exact encloses_ranged (map_eq_ok_some h) (hdims d (Option.mem_filter_iff.mp hd).1) hlo hhi hin
  | none =>
    rw [hd] at h
    cases shape with
    | none => cases h
    | some s =>
      have hs : t.shape = s := hshape s rfl
      subst hs
      exact encloses_static (map_eq_ok_some h) hlo hhi hin

theorem known_insert (h : Known env result) {n : String} (ht : env n = some t) (he : e.Encloses t) :
    Known env (result.insert n e) := by
  intro n' e' hfind
  rw [SortedMap.find?_insert] at hfind
  by_cases hn : n' = n
  · rw [if_pos hn] at hfind
    cases hfind
    exact ⟨t, hn ▸ ht, he⟩
  · rw [if_neg hn] at hfind
    exact h n' e' hfind

theorem known_consts (hrun : Runs other m env) :
    Known env (m.consts.mapVals fun t => Enclosure.static (t.map fin) (t.map fin)) := by
  intro n e hfind
  rw [SortedMap.find?_eq_some_iff] at hfind
  obtain ⟨⟨n', t⟩, hmem, heq⟩ := List.mem_map.mp hfind
  cases heq
  exact ⟨t, hrun.consts n' t ((SortedMap.find?_eq_some_iff _ _ _).mpr hmem), encloses_point t⟩

theorem known_addInput (hbox : InBox m ranges env) {vi : GraphInput} (hvi : vi ∈ m.inputs)
    {result' : SortedMap String Enclosure} (h : Known env result) (hok : addInput m ranges result vi = .ok result') :
    Known env result' := by
  rw [addInput] at hok
  split at hok
  · cases hok
    exact h
  · next hconst =>
    have hnone : m.consts.find? vi.name = none := by simpa using hconst
    obtain ⟨t, ht, hdims, hshape, lo, hi, hlo, hhi, hin⟩ := hbox vi hvi hnone
    obtain ⟨out, hout, hok⟩ := bind_eq_ok hok
    cases out with
    | none =>
      cases hok
      exact h
    | some e =>
      cases hok
      exact known_insert h ht (encloses_input hout hdims hshape hlo hhi hin)

theorem known_start (hrun : Runs other m env) (hbox : InBox m ranges env) {start : SortedMap String Enclosure}
    (h : startState m ranges = .ok start) : Known env start := by
  have hall := foldlM_induct (I := fun rest result => rest ⊆ m.inputs ∧ Known env result)
    (fun vi rest result result' hI hok => ⟨fun x hx => hI.1 (mem_cons_of_mem _ hx),
      known_addInput hbox (hI.1 mem_cons_self) hI.2 hok⟩) ⟨List.Subset.refl _, known_consts hrun⟩ h
  exact hall.2

theorem known_setOutputs (h : Known env result) {os : List String} {es : List (Option Enclosure)}
    (hes : ∀ (k : Nat) o e, os[k]? = some o → es[k]? = some (some e) → o ≠ "" → ∃ t, env o = some t ∧ e.Encloses t) :
    Known env (setOutputs result os es) := by
  induction os generalizing result es with
  | nil => exact h
  | cons o os ih =>
    cases es with
    | nil => exact h
    | cons e es =>
      have hrest : ∀ (k : Nat) o e, os[k]? = some o → es[k]? = some (some e) → o ≠ "" →
          ∃ t, env o = some t ∧ e.Encloses t := fun k => hes (k + 1)
      cases e with
      | none => exact ih h hrest
      | some e =>
        rw [setOutputs]
        by_cases ho : o = ""
        · rw [if_pos ho]
          exact ih h hrest
        · rw [if_neg ho]
          obtain ⟨t, ht, he⟩ := hes 0 o e rfl rfl ho
          exact ih (known_insert h ht he) hrest

theorem known_step (hrun : Runs other m env) {node : Node} (hnode : node ∈ m.nodes)
    (hexact : Exact other rule node (node.inputs.map (valueOf env))) {s : State} (h : Known env s.result) : Known env (stepNode rule s node).result := by
  rw [stepNode]
  split
  · exact h
  · next hall =>
    have hins : List.Forall₂ EnclosesInput (node.inputs.map (lookup s.result))
        (node.inputs.map (valueOf env)) := by
      rw [forall₂_map_left_iff, forall₂_map_right_iff, forall₂_same]
      intro x hx
      rw [lookup, valueOf]
      by_cases hempty : x = ""
      · rw [if_pos hempty, if_pos hempty]
        trivial
      · rw [if_neg hempty, if_neg hempty]
        cases hfind : s.result.find? x with
        | none =>
          refine absurd (List.any_eq_true.mpr ⟨x, hx, ?_⟩) hall
          simp [hempty, hfind]
        | some e =>
          obtain ⟨t, ht, he⟩ := h x e hfind
          rw [ht]
          exact he
    apply known_setOutputs h
    intro k o e ho he hne
    obtain ⟨t, ht, henc⟩ := hexact _ _ hins k e he
    exact ⟨t, (hrun.nodes node hnode k o ho hne).trans ht, henc⟩

theorem propagate_known (hexact : ExactRules other rule m env) (hrun : Runs other m env) (hbox : InBox m ranges env)
    (h : propagate rule m ranges = .ok result) :
    Known env result := by
  obtain ⟨start, hstart, h⟩ := bind_eq_ok h
  cases h
  have hfold : ∀ (nodes : List Node) (s : State), nodes ⊆ m.nodes → Known env s.result →
      Known env (nodes.foldl (stepNode rule) s).result := by
    intro nodes
    induction nodes with
    | nil => exact fun s _ hs => hs
    | cons node nodes ih =>
      intro s hsub hs
      have hnode : node ∈ m.nodes := hsub mem_cons_self
      apply ih
      · exact fun x hx => hsub (mem_cons_of_mem _ hx)
      · exact known_step hrun hnode (hexact node hnode) hs
  exact hfold m.nodes _ (List.Subset.refl _) (known_start hrun hbox hstart)

end Onnxsim.Overflow.Intervals
