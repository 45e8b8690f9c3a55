import Onnxsim.Gradients.Emission
import Onnxsim.Lib.Runs

namespace Onnxsim.Gradients.Registry

open Backward Lib.Dicts Lib.Runs Proto.Graphs

section

/-- The op types of `_RULES`. -/
def ruleTypes : List String :=
  ["Abs", "Add", "AveragePool", "BatchNormalization", "Cast", "Clip", "Concat", "Conv", "Div", "Erf", "Exp", "Expand",
    "Gather", "Gemm", "Identity", "InstanceNormalization", "LayerNormalization", "Log", "LogSoftmax", "Max", "MatMul",
    "MaxPool", "Min", "Mul", "Neg", "ReduceMax", "Pad", "ReduceMean", "ReduceMin", "ReduceSum", "Relu", "Reshape",
    "Sigmoid", "Slice", "Softmax", "Sqrt", "Squeeze", "Sub", "Tanh", "Transpose", "Where", "Unsqueeze"]

/-- The op types of `_PYTHON_ONLY_RULES`. -/
def pythonOnlyTypes : List String :=
  ["DequantizeLinear", "DepthToSpace", "Elu", "GlobalAveragePool", "IsNaN", "LeakyRelu", "PRelu", "QuantizeLinear",
    "Softplus"]

/-- The op types of `_MULTI_OUTPUT_RULES`. -/
def multiOutputTypes : List String := ["Dropout", "Split"]

/-- The built-in rules, whatever they return. -/
structure Builtins where
  rule : String → Rule
  multiOutputRule : String → MultiOutputRule

abbrev Table := String → Option Rule

namespace Builtins

variable (B : Builtins)

def rules : Table := fun op => if op ∈ ruleTypes then some (B.rule op) else none

def pythonOnlyRules : Table := fun op => if op ∈ pythonOnlyTypes then some (B.rule op) else none

def multiOutputRules (op : String) : Option MultiOutputRule :=
  if op ∈ multiOutputTypes then some (B.multiOutputRule op) else none

end Builtins

inductive RegistryError where
  | builtin (opType : String)
  | pythonOnly (opType : String)
  | custom (opType : String)
  | notRegistered (opType : String)

def registerGradient (op : String) (rule : Rule) (override : Bool) (custom : Table) : Except RegistryError Table :=
  if !override && op ∈ ruleTypes then .error (.builtin op)
  else if !override && op ∈ pythonOnlyTypes then .error (.pythonOnly op)
  else if !override && (custom op).isSome then .error (.custom op)
  else .ok (Function.update custom op (some rule))

def unregisterGradient (op : String) (custom : Table) : Except RegistryError Table :=
  if (custom op).isNone then .error (.notRegistered op) else .ok (Function.update custom op none)

def supportedOps (custom : Table) : Set String :=
  {op | op ∈ ruleTypes ∨ (custom op).isSome ∨ op ∈ multiOutputTypes ∨ op ∈ pythonOnlyTypes}

/-- `dict(_RULES, **_PYTHON_ONLY_RULES, **_CUSTOM_RULES)`: a `TypeError` where a keyword is given twice. -/
def mergeRules (B : Builtins) (custom : Table) : Option Table :=
  if pythonOnlyTypes.any fun op => (custom op).isSome then none
  else some fun op => (custom op).or ((B.pythonOnlyRules op).or (B.rules op))

/-- `build_backward` without `rules`; `none` when it fails before the walk. -/
def buildBackwardDefault (B : Builtins) (custom : Table) (b : GraphBuilder) (nodes : List Node)
    (shapes : Dict String (List Int)) (gradOutputs : Dict String String) (targets : List String) :
    Option (Except BackwardError (GraphBuilder × Dict String String)) :=
  (mergeRules B custom).map fun rules =>
    buildBackward ⟨rules, B.multiOutputRules⟩ b nodes shapes gradOutputs targets

/-- The custom rules and the open `custom_gradient` scopes, each with the custom rules that it found, which the code
does not look at. -/
structure State where
  customRules : Table := fun _ => none
  scopes : List (String × Table) := []
  raised : Bool := false

inductive Call where
  | register (op : String) (rule : Rule) (override : Bool)
  | unregister (op : String)
  | enter (op : String) (rule : Rule) (override : Bool)
  | leave

def State.settle (r : State) (scopes : List (String × Table)) : Except RegistryError Table → State
  | .ok custom => ⟨custom, scopes, false⟩
  | .error _ => { r with raised := true }

/-- One call; a body that raises leaves its scope like any other. Only an open scope can be left. -/
def State.step (r : State) : Call → Option State
  | .register op rule override => some (r.settle r.scopes (registerGradient op rule override r.customRules))
  | .unregister op => some (r.settle r.scopes (unregisterGradient op r.customRules))
  | .enter op rule override =>
    some (r.settle ((op, r.customRules) :: r.scopes) (registerGradient op rule override r.customRules))
  | .leave =>
    match r.scopes with
    | [] => none
    | (op, _) :: scopes => some ({ r with scopes := scopes }.settle scopes (unregisterGradient op r.customRules))

end

/-- An overriding table with scopes: what the registry is for. -/
structure Scoped where
  table : Table := fun _ => none
  saved : List Table := []
  raised : Bool := false

def HasRule (table : Table) (op : String) : Prop :=
  (table op).isSome ∨ op ∈ ruleTypes ∨ op ∈ pythonOnlyTypes ∨ op ∈ multiOutputTypes

instance (table : Table) (op : String) : Decidable (HasRule table op) := inferInstanceAs (Decidable (_ ∨ _ ∨ _ ∨ _))

/-- A registration is refused if there is a rule already, and leaving a scope brings back the table it found. -/
def Scoped.step (s : Scoped) : Call → Option Scoped
  | .register op rule override =>
    if !override && HasRule s.table op then some { s with raised := true }
    else some { s with table := Function.update s.table op (some rule), raised := false }
  | .unregister op =>
    if (s.table op).isNone then some { s with raised := true }
    else some { s with table := Function.update s.table op none, raised := false }
  | .enter op rule override =>
    if !override && HasRule s.table op then some { s with raised := true }
    else some ⟨Function.update s.table op (some rule), s.table :: s.saved, false⟩
  | .leave => s.saved.head?.map fun table => ⟨table, s.saved.tail, false⟩

/-- A registered rule comes before every built-in one. -/
def Builtins.inForce (B : Builtins) (table : Table) : RuleTables :=
  ⟨fun op => (table op).or ((B.pythonOnlyRules op).or (B.rules op)),
    fun op => if (table op).isSome then none else B.multiOutputRules op⟩

/-- Whether the walk calls a rule for the op type; it passes by constants. -/
def Dispatches (tables : RuleTables) (op : String) : Prop :=
  op ≠ "Constant" ∧ ((tables.multiOutputRules op).isSome ∨ (tables.rules op).isSome)

structure Behaves (B : Builtins) (r : State) (s : Scoped) : Prop where
  restored : r.customRules = s.table
  raised : r.raised = s.raised
  dispatch : ∀ b nodes shapes seeds targets, buildBackwardDefault B r.customRules b nodes shapes seeds targets =
    some (buildBackward (B.inForce s.table) b nodes shapes seeds targets)
  supported : ∀ op, op ∈ supportedOps r.customRules ↔ Dispatches (B.inForce s.table) op

/-- No op type with several outputs and no constant is given a rule, and no Python-only rule is overridden. -/
def Registrable (op : String) (override : Bool) : Prop :=
  op ∉ multiOutputTypes ∧ op ≠ "Constant" ∧ (override → op ∉ pythonOnlyTypes)

/-- A scope is not opened over a rule that was registered before, and when it is left its own op type still has a rule
and the others have those that they had. -/
def Allowed (r : State) : Call → Prop
  | .register op _ override => Registrable op override
  | .unregister _ => True
  | .enter op _ override => Registrable op override ∧ (override → r.customRules op = none)
  | .leave => ∀ op before scopes, r.scopes = (op, before) :: scopes →
    (r.customRules op).isSome ∧ ∀ op' ≠ op, r.customRules op' = before op'

/-- The registry and the table beside it, through the same call. -/
def next (p : State × Scoped) (c : Call) : Option (State × Scoped) :=
  (p.1.step c).bind fun r => (p.2.step c).map fun s => (r, s)

section

variable {B : Builtins} {r r' : State} {s s' : Scoped} {op : String} {rule : Rule} {override : Bool} {t : Table}

/-- Only op types with one output, or unknown ones, have custom rules. -/
def Plain (t : Table) : Prop := ∀ op, (t op).isSome → op ∉ multiOutputTypes ∧ op ≠ "Constant" ∧ op ∉ pythonOnlyTypes

structure Inv (r : State) (s : Scoped) : Prop where
  table : r.customRules = s.table
  raised : r.raised = s.raised
  saved : r.scopes.map Prod.snd = s.saved
  fresh : ∀ p ∈ r.scopes, p.2 p.1 = none
  plain : Plain r.customRules

theorem Plain.erase (h : Plain t) (op : String) : Plain (Function.update t op none) := by
  intro op' hsome
  by_cases heq : op' = op
  · rw [heq, Function.update_self] at hsome
    cases hsome
  · rw [Function.update_of_ne heq] at hsome
    exact h op' hsome

theorem Plain.register (h : Plain t) (hop : op ∉ multiOutputTypes ∧ op ≠ "Constant" ∧ op ∉ pythonOnlyTypes) (rule : Rule) :
    Plain (Function.update t op (some rule)) := by
  intro op' hsome
  by_cases heq : op' = op
  · exact heq ▸ hop
  · rw [Function.update_of_ne heq] at hsome
    exact h op' hsome

/-- A registration is refused exactly where the op type has a rule, and else it replaces whatever there is. -/
theorem registerGradient_cases (rule : Rule) (t : Table) (hop : Registrable op override) :
    (∃ e, registerGradient op rule override t = .error e ∧ (!override && decide (HasRule t op)) = true) ∨
    (registerGradient op rule override t = .ok (Function.update t op (some rule)) ∧
      (!override && decide (HasRule t op)) = false ∧ op ∉ pythonOnlyTypes) := by
  obtain ⟨hmulti, -, hpython⟩ := hop
  cases override with
  | true => exact .inr ⟨rfl, rfl, hpython rfl⟩
  | false =>
    by_cases hbuiltin : op ∈ ruleTypes
    · exact .inl ⟨.builtin op, by simp [registerGradient, hbuiltin], by simp [HasRule, hbuiltin]⟩
    by_cases honly : op ∈ pythonOnlyTypes
    · exact .inl ⟨.pythonOnly op, by simp [registerGradient, hbuiltin, honly], by simp [HasRule, honly]⟩
    by_cases hcustom : (t op).isSome
    · exact .inl ⟨.custom op, by simp [registerGradient, hbuiltin, honly, hcustom], by simp [HasRule, hcustom]⟩
    · exact .inr ⟨by simp [registerGradient, hbuiltin, honly, hcustom],
        by simp [HasRule, hbuiltin, honly, hcustom, hmulti], honly⟩

theorem Inv.step {c : Call} (h : Inv r s) (hc : Allowed r c) (hr : r.step c = some r') (hs : s.step c = some s') :
    Inv r' s' := by
  obtain ⟨t, saved, raised⟩ := s
  obtain ⟨rfl, rfl, rfl, hfresh, hplain⟩ := h
  cases c with
  | register op rule override =>
    rcases registerGradient_cases rule r.customRules hc with ⟨e, heq, hrule⟩ | ⟨heq, hrule, honly⟩
    · rw [State.step, heq] at hr
      rw [Scoped.step, if_pos hrule] at hs
      cases hr
      cases hs
      exact ⟨rfl, rfl, rfl, hfresh, hplain⟩
    · rw [State.step, heq] at hr
      rw [Scoped.step, if_neg (by rw [hrule]; decide)] at hs
      cases hr
      cases hs
      exact ⟨rfl, rfl, rfl, hfresh, hplain.register ⟨hc.1, hc.2.1, honly⟩ rule⟩
  | unregister op =>
    rw [State.step, unregisterGradient] at hr
    rw [Scoped.step] at hs
    by_cases hnone : (r.customRules op).isNone
    · rw [if_pos hnone] at hr hs
      cases hr
      cases hs
      exact ⟨rfl, rfl, rfl, hfresh, hplain⟩
    · rw [if_neg hnone] at hr hs
      cases hr
      cases hs
      exact ⟨rfl, rfl, rfl, hfresh, hplain.erase op⟩
  | enter op rule override =>
    rcases registerGradient_cases rule r.customRules hc.1 with ⟨e, heq, hrule⟩ | ⟨heq, hrule, honly⟩
    · rw [State.step, heq] at hr
      rw [Scoped.step, if_pos hrule] at hs
      cases hr
      cases hs
      exact ⟨rfl, rfl, rfl, hfresh, hplain⟩
    · have hnone : r.customRules op = none := by
        cases override with
        | true => exact hc.2 rfl
        | false =>
          rw [Bool.not_false, Bool.true_and, decide_eq_false_iff_not, HasRule, not_or] at hrule
          exact Option.not_isSome_iff_eq_none.mp hrule.1
      rw [State.step, heq] at hr
      rw [Scoped.step, if_neg (by rw [hrule]; decide)] at hs
      cases hr
      cases hs
      refine ⟨rfl, rfl, rfl, fun p hp => ?_, hplain.register ⟨hc.1.1, hc.1.2.1, honly⟩ rule⟩
      rcases List.mem_cons.mp hp with rfl | hp
      · exact hnone
      · exact hfresh p hp
  | leave =>
    obtain ⟨custom, scopes, raised⟩ := r
    cases scopes with
    | nil => cases hr
    | cons scope scopes =>
      obtain ⟨op, before⟩ := scope
      obtain ⟨hsome, hothers⟩ := hc op before scopes rfl
      have hrestored : Function.update custom op none = before := by
        funext op'
        by_cases heq : op' = op
        · rw [heq, Function.update_self]
          exact (hfresh (op, before) List.mem_cons_self).symm
        · rw [Function.update_of_ne heq]
          exact hothers op' heq
      have hok : unregisterGradient op custom = .ok (Function.update custom op none) :=
        if_neg (by rw [Option.isNone_iff_eq_none]; exact Option.ne_none_iff_isSome.mpr hsome)
      rw [State.step] at hr
      dsimp only at hr
      rw [hok] at hr
      cases hr
      cases hs
      exact ⟨hrestored, rfl, rfl, fun p hp => hfresh p (List.mem_cons_of_mem _ hp), hplain.erase op⟩

theorem Inv.behaves (h : Inv r s) : Behaves B r s := by
  obtain ⟨htable, hraised, -, -, hplain⟩ := h
  have hmerge : mergeRules B r.customRules = some (B.inForce s.table).rules := by
    rw [mergeRules, if_neg, htable]
    · rfl
    · rw [List.any_eq_true]
      rintro ⟨op, hop, hsome⟩
      exact (hplain op hsome).2.2 hop
  have hmulti : (B.inForce s.table).multiOutputRules = B.multiOutputRules := by
    funext op
    rw [Builtins.inForce]
    dsimp only
    split
    · next hsome =>
      rw [← htable] at hsome
      exact (if_neg (hplain op hsome).1).symm
    · rfl
  refine ⟨htable, hraised, fun b nodes shapes seeds targets => ?_, fun op => ?_⟩
  · rw [buildBackwardDefault, hmerge, Option.map_some, ← hmulti]
  · have hconstant : op ∈ supportedOps r.customRules → op ≠ "Constant" := by
      rintro (hop | hsome | hop | hop) rfl
      · exact absurd hop (by decide)
      · exact (hplain _ hsome).2.1 rfl
      · exact absurd hop (by decide)
      · exact absurd hop (by decide)
    rw [Dispatches, hmulti, ← htable, ← and_iff_right_of_imp hconstant]
    refine and_congr_right fun _ => ?_
    simp only [supportedOps, Set.mem_ofPred_eq, Builtins.multiOutputRules, Builtins.inForce, Builtins.pythonOnlyRules,
      Builtins.rules]
    by_cases h₁ : op ∈ ruleTypes <;> by_cases h₂ : op ∈ multiOutputTypes <;> by_cases h₃ : op ∈ pythonOnlyTypes <;>
      simp [h₁, h₂, h₃]

end

/-- As long as every call is allowed the registry behaves like an overriding table with scopes. -/
theorem registry_scoped (B : Builtins) {r : State} {s : Scoped}
    (h : Run next (fun p c => Allowed p.1 c) ({}, {}) (r, s)) : Behaves B r s := by
  let Both : State × Scoped → Prop := fun p => Inv p.1 p.2
  have hstart : Both ({}, {}) := ⟨rfl, rfl, rfl, fun _ => nofun, fun _ => nofun⟩
  have hinv : Both (r, s) := by
    refine h.induct hstart fun p q c hp hc hstep => ?_
    obtain ⟨r', hr, hstep⟩ := Option.bind_eq_some_iff.mp hstep
    obtain ⟨s', hs, rfl⟩ := Option.map_eq_some_iff.mp hstep
    exact hp.step hc hr hs
  exact hinv.behaves

def constantly : Builtins := ⟨fun _ _ _ _ b => .ok (b, []), fun _ _ _ _ b => .ok (b, [])⟩

/-- A Python-only rule overridden, a second rule for `Split`, and a scope over a registered rule. -/
def spoiling : List (List Call) :=
  [[.register "IsNaN" (constantly.rule "") true], [.register "Split" (constantly.rule "") false],
    [.register "Sin" (constantly.rule "") false, .enter "Sin" (constantly.rule "") true, .leave]]

theorem spoiling_not_scoped :
    spoiling.Forall fun cs => ∃ r s, cs.foldlM next ({}, {}) = some (r, s) ∧ ¬Behaves constantly r s := by
  simp only [spoiling, List.Forall]
  refine ⟨⟨_, _, rfl, fun h => ?_⟩, ⟨_, _, rfl, fun h => ?_⟩, ⟨_, _, rfl, fun h => ?_⟩⟩
  · have hfails := h.dispatch {} [] .empty .empty []
    cases hfails
  · exact Bool.noConfusion h.raised
  · cases congrFun h.restored "Sin"

theorem registry_scoped_sin : ∃ r s, next ({}, {}) (.register "Sin" (constantly.rule "") false) = some (r, s) ∧
    Behaves constantly r s := by
  refine ⟨_, _, rfl, registry_scoped constantly (.tail .refl (a := .register "Sin" (constantly.rule "") false) ?_ rfl)⟩
  exact ⟨by decide, by decide, nofun⟩

end Onnxsim.Gradients.Registry
