import Onnxsim.Fold.FoldConstant
import Onnxsim.Lib.Dataflow
import Onnxsim.Lib.NodeRuns
import Onnxsim.Lib.Results

namespace Onnxsim.Fold.Semantics

open List Lib.Dataflow Proto.Graphs Proto.Models
open Fold.Partition RunOps FoldConstant

/-- The operators' meaning, which is not part of this repository. `Ω` is what the random operators
draw from: an operator that the registry calls deterministic, and `Constant`, does not see it. -/
structure OpSemantics (V Ω : Type) (registry : Registry) where
  ofTensor : Tensor → V
  run : Ω → List (String × Int) → Node → (String → Option V) → List V
  run_congr : ∀ ω opsets n e e', (∀ x ∈ n.reads, e x = e' x) →
    run ω opsets n e = run ω opsets n e'
  run_deterministic : ∀ ω ω' opsets n e,
    isDeterministic registry n.domain n.opType (opsetVersionOf opsets n.domain) = true →
      hasSubgraph n = false → run ω opsets n e = run ω' opsets n e
  run_constant : ∀ ω ω' opsets n e, isConstantOp n = true → run ω opsets n e = run ω' opsets n e
  run_value : ∀ ω opsets name t e, run ω opsets (makeConstantNode name t) e = [ofTensor t]

def slots (names : List String) : List (Option String) :=
  names.map fun o => if o = "" then none else some o

theorem named_slots (names : List String) : named (slots names) = nonempty names := by
  induction names with
  | nil => rfl
  | cons o names ih =>
    by_cases ho : o = ""
    · simpa [named, slots, nonempty, ho] using ih
    · simpa [named, slots, nonempty, ho] using ih

variable {V Ω : Type} {registry : Registry} (sem : OpSemantics V Ω registry)

def behaviour (ω : Ω) (opsets : List (String × Int)) : Behaviour Node String V where
  reads := Node.reads
  writes n := slots n.output
  run := sem.run ω opsets
  run_congr := sem.run_congr ω opsets

theorem written_eq (ω : Ω) (opsets : List (String × Int)) (n : Node) :
    written (behaviour sem ω opsets) n = nonempty n.output := named_slots n.output

def baseEnv (m : Model) (inputs : String → Option V) (y : String) : Option V :=
  if y ∈ m.inputNames then inputs y else (m.initializer.lookup y).map sem.ofTensor

/-- The values of a model's names when it runs on `inputs`. -/
def evalModel (ω : Ω) (m : Model) (inputs : String → Option V) : String → Option V :=
  eval (behaviour sem ω m.opsetImport) m.node (baseEnv sem m inputs)

def feedEnv (m : Model) (feeds : List Tensor) (y : String) : Option V :=
  ((m.inputNames.zip feeds).lookup y).map sem.ofTensor

/-- An executor that throws or returns the tensors of the sub-model it is given, one for each
output; it may return anything for an output without a name. -/
def Correct (executor : Executor) : Prop :=
  ∀ sub feeds outs, executor sub feeds = .ok outs → outs.length = sub.output.length ∧
    ∃ ω, ∀ (j : Nat) (o : String) (t : Tensor), sub.output[j]? = some o → o ≠ "" →
      outs[j]? = some t → evalModel sem ω sub (feedEnv sem sub feeds) o = some (sem.ofTensor t)

def defs (m : Model) : List String := m.inputNames ++ m.initializerNames

/-- Every node reads only names that are defined before it. -/
def Sorted : List String → List Node → Prop
  | _, [] => True
  | ds, n :: ns => (∀ x ∈ n.reads, x ∈ ds) ∧ Sorted (ds ++ nonempty n.output) ns

instance Sorted.decidable : (ds : List String) → (ns : List Node) → Decidable (Sorted ds ns)
  | _, [] => .isTrue trivial
  | ds, n :: ns => @instDecidableAnd (∀ x ∈ n.reads, x ∈ ds) _ inferInstance (Sorted.decidable (ds ++ nonempty n.output) ns)

/-- A topologically sorted model in single static assignment form, in which no initializer is an
input, every output is defined and Constant nodes read nothing. -/
structure Valid (m : Model) : Prop where
  single : (defs m ++ m.node.flatMap fun n => nonempty n.output).Nodup
  sorted : Sorted (defs m) m.node
  outputs : ∀ o ∈ m.output, o ∈ defs m ++ m.node.flatMap fun n => nonempty n.output
  nonempty_defs : "" ∉ defs m
  nonempty_used : "" ∉ usedNodes m.node
  constants : ∀ n ∈ m.node, isConstantOp n = true → n.input = [] ∧ hasSubgraph n = false

theorem scoped_of_sorted {ds : List String} {ns : List Node} (h : Sorted ds ns) (ω : Ω)
    (opsets : List (String × Int)) : Scoped (behaviour sem ω opsets) ds ns := by
  induction ns generalizing ds with
  | nil => trivial
  | cons n ns ih =>
    refine ⟨h.1, ?_⟩
    rw [written_eq]
    exact ih h.2

theorem flatMap_written (ω : Ω) (opsets : List (String × Int)) (ns : List Node) :
    ns.flatMap (written (behaviour sem ω opsets)) = ns.flatMap fun n => nonempty n.output :=
  congrArg (ns.flatMap ·) (funext (written_eq sem ω opsets))

variable {m : Model}

theorem evalModel_solves (hv : Valid m) (ω : Ω) (inputs : String → Option V) :
    ∀ n ∈ m.node, Solves (behaviour sem ω m.opsetImport) n (evalModel sem ω m inputs) := by
  refine eval_solves _ (scoped_of_sorted sem hv.sorted ω _) ?_ _
  rw [SingleAssignment, flatMap_written]
  exact hv.single

variable {y : String} {t : Tensor}

theorem evalModel_def (hv : Valid m) (ω : Ω) (inputs : String → Option V) (hy : y ∈ defs m) :
    evalModel sem ω m inputs y = baseEnv sem m inputs y := by
  refine eval_of_notMem _ ?_ _
  rw [flatMap_written]
  exact fun hmem => (nodup_append.mp hv.single).2.2 y hy y hmem rfl

theorem lookup_of_nodup {l : List (String × Tensor)} (hn : (l.map Prod.fst).Nodup) (hm : (y, t) ∈ l) :
    l.lookup y = some t := by
  induction l with
  | nil => cases hm
  | cons p l ih =>
    obtain ⟨z, u⟩ := p
    obtain ⟨hz, hl⟩ := nodup_cons.mp hn
    rcases mem_cons.mp hm with heq | hm
    · cases heq
      exact lookup_cons_self
    · have hne : (y == z) = false := by
        refine beq_false_of_ne fun he => hz ?_
        exact he ▸ List.mem_map.mpr ⟨(y, t), hm, rfl⟩
      rw [lookup_cons, hne]
      exact ih hl hm

theorem evalModel_initializer (hv : Valid m) (ω : Ω) (inputs : String → Option V) (hm : (y, t) ∈ m.initializer) :
    evalModel sem ω m inputs y = some (sem.ofTensor t) := by
  have hname : y ∈ m.initializerNames := List.mem_map.mpr ⟨(y, t), hm, rfl⟩
  obtain ⟨hdefs, -, -⟩ := nodup_append.mp hv.single
  obtain ⟨-, hinit, hdisj⟩ := nodup_append.mp hdefs
  have hnot : y ∉ m.inputNames := fun hi => hdisj y hi y hname rfl
  rw [evalModel_def sem hv ω inputs (mem_append_right _ hname), baseEnv, if_neg hnot,
    lookup_of_nodup hinit hm, Option.map_some]

end Onnxsim.Fold.Semantics

namespace Onnxsim.Fold.Order

open List Lib.Dataflow Proto.Graphs Proto.Models
open Fold.Partition RunOps FoldConstant Semantics

variable {ds : List String} {ns : List Node} {n a c : Node} {i j : Nat} {y : String}

theorem sorted_mono {ds' : List String} (h : Sorted ds ns) (hsub : ∀ y ∈ ds, y ∈ ds') : Sorted ds' ns := by
  induction ns generalizing ds ds' with
  | nil => trivial
  | cons n ns ih =>
    refine ⟨fun x hx => hsub x (h.1 x hx), ih h.2 fun y hy => ?_⟩
    rw [mem_append] at hy ⊢
    exact hy.imp_left (hsub y)

theorem sorted_append {as bs : List Node} (ha : Sorted ds as)
    (hb : Sorted (ds ++ as.flatMap fun n => nonempty n.output) bs) : Sorted ds (as ++ bs) := by
  induction as generalizing ds with
  | nil => simpa using hb
  | cons a as ih =>
    refine ⟨ha.1, ih ha.2 ?_⟩
    rwa [flatMap_cons, ← append_assoc] at hb

theorem sorted_singleton (h : ∀ x ∈ n.reads, x ∈ ds) : Sorted ds [n] := ⟨h, trivial⟩

theorem reads_notMem_later (hs : Sorted ds ns) (hn : (ds ++ ns.flatMap fun n => nonempty n.output).Nodup)
    (hi : ns[i]? = some a) (hj : ns[j]? = some c) (hij : i ≤ j) :
    ∀ y ∈ a.reads, y ∉ nonempty c.output := by
  induction ns generalizing ds i j with
  | nil => simp at hi
  | cons n ns ih =>
    have hflat : ∀ {k}, ns[k]? = some c → ∀ y ∈ nonempty c.output,
        y ∈ ns.flatMap fun n => nonempty n.output := fun {k} hk y hy =>
      mem_flatMap.mpr ⟨c, mem_of_getElem? hk, hy⟩
    rw [flatMap_cons] at hn
    cases i with
    | zero =>
      obtain rfl : n = a := by simpa using hi
      intro y hy hmem
      have hall : y ∈ nonempty n.output ++ ns.flatMap fun n => nonempty n.output := by
        cases j with
        | zero =>
          obtain rfl : n = c := by simpa using hj
          exact mem_append_left _ hmem
        | succ j => exact mem_append_right _ (hflat hj y hmem)
      exact (nodup_append.mp hn).2.2 y (hs.1 y hy) y hall rfl
    | succ i =>
      cases j with
      | zero => omega
      | succ j =>
        rw [← append_assoc] at hn
        exact ih hs.2 hn hi hj (by omega)

variable {m : Model}

theorem index_lt_of_reads (hv : Valid m) (hi : m.node[i]? = some a) (hj : m.node[j]? = some c) (hy : y ∈ a.reads)
    (hc : y ∈ nonempty c.output) : j < i := by
  by_contra hle
  exact reads_notMem_later hv.sorted hv.single hi hj (by omega) y hy hc

theorem producer_unique (hv : Valid m) (hi : m.node[i]? = some a) (hj : m.node[j]? = some c)
    (ha : y ∈ nonempty a.output) (hc : y ∈ nonempty c.output) : i = j :=
  Lib.NodeRuns.writer_unique (nodup_append.mp hv.single).2.1 hi hj ha hc

theorem eq_of_common_output (hv : Valid m) (ha : a ∈ m.node) (hc : c ∈ m.node) (hya : y ∈ nonempty a.output)
    (hyc : y ∈ nonempty c.output) : a = c := by
  obtain ⟨i, hi⟩ := getElem?_of_mem ha
  obtain ⟨j, hj⟩ := getElem?_of_mem hc
  have hij := producer_unique hv hi hj hya hyc
  rw [hij, hj] at hi
  exact (Option.some.inj hi).symm

theorem freeAttrs_of_no_subgraph {as : List Attr} (h : as.any Attr.isGraph = false) :
    freeAttrs as = [] := by
  induction as with
  | nil => rfl
  | cons a as ih =>
    rw [any_cons, Bool.or_eq_false_iff] at h
    rw [freeAttrs, ih h.2]
    cases a with
    | graph n g => exact absurd h.1 (by simp [Attr.isGraph])
    | graphs n gs => exact absurd h.1 (by simp [Attr.isGraph])
    | _ => rfl

theorem reads_of_no_subgraph (h : hasSubgraph n = false) : n.reads = nonempty n.input := by
  cases n with
  | mk name domain opType input output attrs =>
    have hfree : freeAttrs attrs = [] := freeAttrs_of_no_subgraph h
    rw [Node.reads, hfree, append_nil]
    rfl

theorem mem_nonempty {names : List String} : y ∈ nonempty names ↔ y ∈ names ∧ y ≠ "" := by
  simp [nonempty]

end Onnxsim.Fold.Order

namespace Onnxsim.Fold.SubModels

open List Lib.Dataflow Lib.Results Proto.Graphs Proto.Models
open Fold.Partition RunOps FoldConstant Semantics
open Fold.Order

variable {V Ω : Type} {registry : Registry} (sem : OpSemantics V Ω registry) (m : Model)

/-- The node's equation holds of the model's own values, whatever randomness it is run with. -/
def Sound (n : Node) : Prop :=
  ∀ ω ω' inputs, Solves (behaviour sem ω' m.opsetImport) n (evalModel sem ω m inputs)

/-- A tensor that is the value of `y` in every run of the model. -/
def ValueOf (y : String) (t : Tensor) : Prop :=
  ∀ ω inputs, evalModel sem ω m inputs y = some (sem.ofTensor t)

/-- What `RunOps` can rely on when it builds a sub-model; `nodeOf` follows a pointer. -/
structure ScopeOk (nodeOf : Key → Option Node) (sc : Scope) : Prop where
  initializer : ∀ y t, y ≠ "" → sc.initializer.lookup y = some t → ValueOf sem m y t
  constant : ∀ y r, y ≠ "" → sc.constants.lookup y = some r →
    y ∈ r.2.output ∧ nodeOf r.1 = some r.2 ∧ isConstantOp r.2 = true ∧ r.2.input = [] ∧
      r.2.reads = [] ∧ Sound sem m r.2 ∧ ∀ k, r.1 ≠ .const k
  deferred : ∀ y r, y ≠ "" → sc.deferred.lookup y = some r →
    y ∈ r.2.output ∧ nodeOf r.1 = some r.2 ∧ isConstantOp r.2 = false ∧
      r.2.reads = nonempty r.2.input ∧ Sound sem m r.2 ∧
      ∃ i, r.1 = .model i ∧ m.node[i]? = some r.2

def givenNames (st : SubModel) : List String := (st.feeds ++ st.initializer).map Prod.fst

def available (st : SubModel) : List String :=
  givenNames st ++ st.node.flatMap fun n => nonempty n.output

/-- The state of a sub-model under construction. `stack` holds the pointers whose nodes have been
entered and not yet emitted. -/
structure BuildInv (nodeOf : Key → Option Node) (sc : Scope) (st : SubModel) (stack : List Key) :
    Prop where
  sorted : Sorted (givenNames st) st.node
  given : ∀ p ∈ st.feeds ++ st.initializer, sc.initializer.lookup p.1 = some p.2 ∧ p.1 ≠ ""
  seen : ∀ y ∈ st.seenInputs, y ∈ givenNames st
  sound : ∀ n ∈ st.node, Sound sem m n
  done : ∀ key n, nodeOf key = some n → key ∈ st.included →
    key ∈ stack ∨ ∀ y ∈ nonempty n.output, y ∈ available st

def Grows (st st' : SubModel) : Prop :=
  (∀ y ∈ available st, y ∈ available st') ∧ ∀ k, Key.const k ∈ st'.included → Key.const k ∈ st.included

theorem Grows.refl (st : SubModel) : Grows st st := ⟨fun _ h => h, fun _ h => h⟩

variable {a b : SubModel} {P : Nat → Prop} {n : Node} {i : Nat}

theorem Grows.trans {c : SubModel} (h : Grows a b) (h' : Grows b c) : Grows a c :=
  ⟨fun y hy => h'.1 y (h.1 y hy), fun k hk => h.2 k (h'.2 k hk)⟩

/-- Entries of `stack` are operators of the batch, or model nodes that are no Constants and stand
after the positions that satisfy `Before`. -/
def Pending (Before : Nat → Prop) (stack : List Key) : Prop :=
  ∀ key ∈ stack, (∃ k, key = .const k) ∨
    ∃ j n, key = .model j ∧ Before j ∧ m.node[j]? = some n ∧ isConstantOp n = false

theorem Pending.mono {m : Model} {Q : Nat → Prop} {stack : List Key} (h : Pending m P stack) (hpq : ∀ j, P j → Q j) :
    Pending m Q stack := by
  intro key hk
  rcases h key hk with hc | ⟨j, n, hj, hp, hn⟩
  · exact .inl hc
  · exact .inr ⟨j, n, hj, hpq j hp, hn⟩

theorem Pending.push {m : Model} {stack : List Key} (h : Pending m P stack) (hi : P i) (hn : m.node[i]? = some n)
    (hc : isConstantOp n = false) :
    Pending m P (.model i :: stack) := by
  intro key hk
  rcases mem_cons.mp hk with rfl | hk
  · exact .inr ⟨i, n, rfl, hi, hn, hc⟩
  · exact h key hk

variable {sem m} {nodeOf : Key → Option Node} {sc : Scope} {st st' : SubModel} {stack : List Key}

theorem available_mono (hg : ∀ y ∈ givenNames a, y ∈ givenNames b) (hn : a.node = b.node) :
    ∀ y ∈ available a, y ∈ available b := by
  intro y hy
  rw [available, mem_append] at hy ⊢
  rw [← hn]
  exact hy.imp_left (hg y)

variable {y : String} {key : Key} {r : Ref}

theorem buildInv_given {t : Tensor} (hy : y ≠ "") (hinv : BuildInv sem m nodeOf sc st stack)
    (hlookup : sc.initializer.lookup y = some t) (hnode : st.node = st'.node) (hincluded : st.included = st'.included)
    (hseen : st'.seenInputs = y :: st.seenInputs)
    (hgiven : ∀ p, p ∈ st'.feeds ++ st'.initializer ↔ p = (y, t) ∨ p ∈ st.feeds ++ st.initializer) :
    BuildInv sem m nodeOf sc st' stack ∧ Grows st st' ∧ y ∈ available st' := by
  have hnames : ∀ z ∈ givenNames st, z ∈ givenNames st' := by
    intro z hz
    obtain ⟨p, hp, rfl⟩ := List.mem_map.mp hz
    exact List.mem_map.mpr ⟨p, (hgiven p).mpr (.inr hp), rfl⟩
  have hmem : y ∈ givenNames st' := List.mem_map.mpr ⟨(y, t), (hgiven _).mpr (.inl rfl), rfl⟩
  have hmono := available_mono hnames hnode
  refine ⟨⟨?_, fun p hp => ?_, fun z hz => ?_, ?_, fun key n hkey hk => ?_⟩, ⟨hmono, ?_⟩,
    mem_append_left _ hmem⟩
  · rw [← hnode]
    exact sorted_mono hinv.sorted hnames
  · rcases (hgiven p).mp hp with rfl | hp
    · exact ⟨hlookup, hy⟩
    · exact hinv.given p hp
  · rw [hseen] at hz
    rcases mem_cons.mp hz with rfl | hz
    · exact hmem
    · exact hnames z (hinv.seen z hz)
  · rw [← hnode]
    exact hinv.sound
  · rw [← hincluded] at hk
    exact (hinv.done key n hkey hk).imp_right fun h z hz => hmono z (h z hz)
  · rw [hincluded]
    exact fun _ h => h

theorem addInput_spec (hy : y ≠ "") (hinv : BuildInv sem m nodeOf sc st stack) (h : addInput sc st y = .ok st') :
    BuildInv sem m nodeOf sc st' stack ∧ Grows st st' ∧ y ∈ available st' := by
  rw [addInput] at h
  split at h
  · next hseen =>
    cases h
    exact ⟨hinv, .refl st, mem_append_left _ (hinv.seen y (by simpa using hseen))⟩
  obtain ⟨t, ht, h⟩ := bind_eq_ok h
  have hlookup : sc.initializer.lookup y = some t := by
    rw [findInitializerByName] at ht
    split at ht
    · next u hu =>
      cases ht
      exact hu
    · cases ht
  split at h
  · cases h
    refine buildInv_given hy hinv hlookup rfl rfl rfl fun p => ?_
    simp only [mem_append, mem_singleton]
    tauto
  · cases h
    refine buildInv_given hy hinv hlookup rfl rfl rfl fun p => ?_
    simp only [mem_append, mem_singleton]
    tauto

theorem emit_spec (hinv : BuildInv sem m nodeOf sc st (key :: stack)) (hkey : nodeOf key = some n)
    (hreads : ∀ y ∈ n.reads, y ∈ available st) (hsound : Sound sem m n) :
    BuildInv sem m nodeOf sc { st with node := st.node ++ [n] } stack ∧
      Grows st { st with node := st.node ++ [n] } ∧
      ∀ y ∈ nonempty n.output, y ∈ available { st with node := st.node ++ [n] } := by
  have hmono : ∀ y ∈ available st, y ∈ available { st with node := st.node ++ [n] } := by
    intro y hy
    simp only [available, flatMap_append, mem_append] at hy ⊢
    tauto
  have hout : ∀ y ∈ nonempty n.output, y ∈ available { st with node := st.node ++ [n] } := by
    intro y hy
    simp only [available, flatMap_append, flatMap_cons, flatMap_nil,
      append_nil, mem_append]
    tauto
  refine ⟨⟨?_, hinv.given, hinv.seen, fun a ha => ?_, fun k a hk hmem => ?_⟩, ⟨hmono, fun _ h => h⟩,
    hout⟩
  · exact sorted_append hinv.sorted (sorted_singleton hreads)
  · rcases mem_append.mp ha with ha | ha
    · exact hinv.sound a ha
    · rw [mem_singleton.mp ha]
      exact hsound
  · rcases hinv.done k a hk hmem with hstack | hdone
    · rcases mem_cons.mp hstack with rfl | hstack
      · rw [hkey] at hk
        exact .inr (Option.some.inj hk ▸ hout)
      · exact .inl hstack
    · exact .inr fun y hy => hmono y (hdone y hy)

theorem enter_spec (key : Key) (hinv : BuildInv sem m nodeOf sc st stack) :
    BuildInv sem m nodeOf sc { st with included := key :: st.included } (key :: stack) := by
  refine ⟨hinv.sorted, hinv.given, hinv.seen, hinv.sound, fun k a hk hmem => ?_⟩
  rcases mem_cons.mp hmem with rfl | hmem
  · exact .inl mem_cons_self
  · exact (hinv.done k a hk hmem).imp_left (mem_cons_of_mem _)

theorem grows_enter (hne : ∀ k, key ≠ .const k) : Grows st { st with included := key :: st.included } :=
  ⟨fun _ h => h, fun k hk => (mem_cons.mp hk).resolve_left fun he => hne k he.symm⟩

theorem inputs_spec {f : SubModel → String → Except String SubModel} {input : List String}
    (hinv : BuildInv sem m nodeOf sc st stack) (h : input.foldlM f st = .ok st')
    (hstep : ∀ y ∈ input, ∀ s s', BuildInv sem m nodeOf sc s stack → Grows st s → f s y = .ok s' →
      BuildInv sem m nodeOf sc s' stack ∧ Grows s s' ∧ (y ≠ "" → y ∈ available s')) :
    BuildInv sem m nodeOf sc st' stack ∧ Grows st st' ∧ ∀ y ∈ nonempty input, y ∈ available st' := by
  have hloop := foldlM_induct
    (I := fun rest s => (∀ y ∈ rest, y ∈ input) ∧ BuildInv sem m nodeOf sc s stack ∧ Grows st s ∧
      ∀ y ∈ nonempty input, y ∈ rest ∨ y ∈ available s)
    (fun y rest s s' hI hs => by
      obtain ⟨hrest, hinv, hgrow, hav⟩ := hI
      obtain ⟨hinv', hgrow', hy⟩ := hstep y (hrest y mem_cons_self) s s' hinv hgrow hs
      refine ⟨fun z hz => hrest z (mem_cons_of_mem _ hz), hinv', hgrow.trans hgrow',
        fun z hz => ?_⟩
      rcases hav z hz with hz' | hz'
      · rcases mem_cons.mp hz' with rfl | hz'
        · exact .inr (hy (mem_nonempty.mp hz).2)
        · exact .inl hz'
      · exact .inr (hgrow'.1 z hz'))
    ⟨fun _ h => h, hinv, .refl st, fun y hy => .inl (mem_nonempty.mp hy).1⟩ h
  obtain ⟨-, hinv', hgrow, hav⟩ := hloop
  exact ⟨hinv', hgrow, fun y hy => (hav y hy).resolve_left (by simp)⟩

/-- What visiting a producer must achieve: its outputs become available. -/
def Visits (sem : OpSemantics V Ω registry) (m : Model) (nodeOf : Key → Option Node) (sc : Scope)
    (visit : Ref → SubModel → Except String SubModel) (stack : List Key) (r : Ref) : Prop :=
  ∀ s s', BuildInv sem m nodeOf sc s stack → visit r s = .ok s' →
    BuildInv sem m nodeOf sc s' stack ∧ Grows s s' ∧ ∀ y ∈ nonempty r.2.output, y ∈ available s'

theorem includeInput_spec {visit : Ref → SubModel → Except String SubModel} (hsc : ScopeOk sem m nodeOf sc)
    (hinternal : y ≠ "" → y ∈ sc.internalOutputs → y ∈ available st)
    (hdeferred : y ≠ "" → ∀ r, sc.deferred.lookup y = some r → Visits sem m nodeOf sc visit stack r)
    (hconstant : y ≠ "" → ∀ r, sc.constants.lookup y = some r → Visits sem m nodeOf sc visit stack r)
    (hinv : BuildInv sem m nodeOf sc st stack) (h : includeInput visit sc st y = .ok st') :
    BuildInv sem m nodeOf sc st' stack ∧ Grows st st' ∧ (y ≠ "" → y ∈ available st') := by
  rw [includeInput] at h
  split at h
  · next hy =>
    cases h
    exact ⟨hinv, .refl st, fun hne => absurd hy hne⟩
  next hy =>
  split at h
  · next hint =>
    cases h
    exact ⟨hinv, .refl st, fun hne => hinternal hne (by simpa using hint)⟩
  split at h
  · next r hr =>
    obtain ⟨hinv', hgrow, hout⟩ := hdeferred hy r hr st st' hinv h
    exact ⟨hinv', hgrow, fun _ => hout y (mem_nonempty.mpr ⟨(hsc.deferred y r hy hr).1, hy⟩)⟩
  · split at h
    · next r hr =>
      obtain ⟨hinv', hgrow, hout⟩ := hconstant hy r hr st st' hinv h
      exact ⟨hinv', hgrow, fun _ => hout y (mem_nonempty.mpr ⟨(hsc.constant y r hy hr).1, hy⟩)⟩
    · obtain ⟨hinv', hgrow, hout⟩ := addInput_spec hy hinv h
      exact ⟨hinv', hgrow, fun _ => hout⟩

theorem visits_constant (hnode : ∀ j, nodeOf (.model j) = m.node[j]?) (fuel : Nat) (hkey : nodeOf r.1 = some r.2)
    (hconst : isConstantOp r.2 = true) (hinput : r.2.input = []) (hreads : r.2.reads = []) (hsound : Sound sem m r.2)
    (hne : ∀ k, r.1 ≠ .const k) (hpending : Pending m P stack) : Visits sem m nodeOf sc (includeNode sc fuel) stack r := by
  intro s s' hinv h
  have hstack : r.1 ∉ stack := by
    intro hmem
    rcases hpending r.1 hmem with ⟨k, hk⟩ | ⟨j, n, hj, -, hn, hnc⟩
    · exact hne k hk
    · rw [hj, hnode, hn] at hkey
      rw [← Option.some.inj hkey, hnc] at hconst
      cases hconst
  cases fuel with
  | zero => cases h
  | succ fuel =>
    rw [includeNode] at h
    split at h
    · next hmem =>
      cases h
      exact ⟨hinv, .refl s, (hinv.done r.1 r.2 hkey (by simpa using hmem)).resolve_left hstack⟩
    · rw [hinput] at h
      cases h
      obtain ⟨hinv', hgrow, hout⟩ := emit_spec (enter_spec r.1 hinv) hkey
        (by rw [hreads]; simp) hsound
      exact ⟨hinv', (grows_enter hne).trans hgrow, hout⟩

theorem visits_deferred (hv : Valid m) (hnode : ∀ j, nodeOf (.model j) = m.node[j]?) (hsc : ScopeOk sem m nodeOf sc)
    (fuel : Nat) (hi : r.1 = .model i) (hr : m.node[i]? = some r.2) (hnc : isConstantOp r.2 = false)
    (hreads : r.2.reads = nonempty r.2.input) (hsound : Sound sem m r.2)
    (hinternal : ∀ (j : Nat) (a : Node), j ≤ i → m.node[j]? = some a →
      ∀ y ∈ nonempty a.input, y ∉ sc.internalOutputs)
    (hpending : Pending m (i < ·) stack) : Visits sem m nodeOf sc (includeNode sc fuel) stack r := by
  induction fuel generalizing i r stack with
  | zero =>
    intro s s' _ h
    cases h
  | succ fuel ih =>
    intro s s' hinv h
    have hkey : nodeOf r.1 = some r.2 := by rw [hi, hnode, hr]
    rw [includeNode] at h
    split at h
    · next hmem =>
      cases h
      refine ⟨hinv, .refl s, (hinv.done r.1 r.2 hkey (by simpa using hmem)).resolve_left ?_⟩
      intro hstack
      rcases hpending r.1 hstack with ⟨k, hk⟩ | ⟨j, n, hj, hlt, -⟩
      · rw [hi] at hk
        cases hk
      · rw [hi] at hj
        cases hj
        exact Nat.lt_irrefl _ hlt
    obtain ⟨s₁, hs₁, h⟩ := bind_eq_ok h
    cases h
    have hpending' : ∀ i' < i, Pending m (i' < ·) (r.1 :: stack) := fun i' hlt => by
      rw [hi]
      exact (hpending.mono fun j hj => hlt.trans hj).push hlt hr hnc
    have hsteps := inputs_spec (enter_spec r.1 hinv) hs₁ fun y hy s₂ s₃ hinv₂ _ h₂ => by
      have hmem : y ≠ "" → y ∈ nonempty r.2.input := fun hne => mem_nonempty.mpr ⟨hy, hne⟩
      refine includeInput_spec hsc (fun hne hint => ?_) (fun hne r' hr' => ?_)
        (fun hne r' hr' => ?_) hinv₂ h₂
      · exact absurd hint (hinternal i r.2 (Nat.le_refl i) hr y (hmem hne))
      · obtain ⟨hout, -, hnc', hreads', hsound', i', hi', hn'⟩ := hsc.deferred y r' hne hr'
        have hlt : i' < i := index_lt_of_reads hv hr hn' (hreads ▸ hmem hne)
          (mem_nonempty.mpr ⟨hout, hne⟩)
        exact ih hi' hn' hnc' hreads' hsound' (fun j a hj => hinternal j a (by omega))
          (hpending' i' hlt)
      · obtain ⟨-, hkey', hc', hinput', hreads', hsound', hne'⟩ := hsc.constant y r' hne hr'
        have hopen : Pending m (fun _ => True) (r.1 :: stack) := by
          rw [hi]
          exact (hpending.mono fun _ _ => trivial).push trivial hr hnc
        exact visits_constant hnode fuel hkey' hc' hinput' hreads' hsound' hne' hopen
    obtain ⟨hinv₁, hgrow₁, hin⟩ := hsteps
    obtain ⟨hinv', hgrow, hout⟩ := emit_spec hinv₁ hkey (by rw [hreads]; exact hin) hsound
    have hne : ∀ k, r.1 ≠ .const k := fun k he => by
      rw [hi] at he
      cases he
    exact ⟨hinv', (grows_enter hne).trans (hgrow₁.trans hgrow), hout⟩

end Onnxsim.Fold.SubModels
