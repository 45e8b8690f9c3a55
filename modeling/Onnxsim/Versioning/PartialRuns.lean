import Onnxsim.Versioning.Matching

namespace Onnxsim.Versioning.PartialRuns

open List Graphs

variable {τ V : Type}

section

inductive Status where
  | ran
  | failed
  | skipped
deriving DecidableEq, Repr

structure NodeRun where
  label : String
  opType : String
  status : Status
  error : String
deriving DecidableEq, Repr

/-- Graph outputs of a partial run; an output without a value is not judged. -/
structure PartialRun (V : Type) where
  outputs : List (String × Option V)
  nodes : List NodeRun
deriving DecidableEq

def PartialRun.skipped (run : PartialRun V) : List String :=
  (run.outputs.filter fun e => e.2.isNone).map Prod.fst

def PartialRun.failedNodes (run : PartialRun V) : List String :=
  (run.nodes.filter fun n => n.status = .failed).map NodeRun.label

/-- A backend runs one node on its input arrays; an error is the type and text of what it raises. -/
abbrev Backend (V : Type) := Node → List (Option V) → Except String (List V)

abbrev Env (V : Type) := String → Option V

/-- The tensors before the first node: the feeds, and the initializers that no feed replaces. -/
def given (toArray : τ → V) (g : Graph τ) (feeds : Env V) : Env V := fun t =>
  (feeds t).or ((g.initializers.findRev? fun e => e.1 = t).map fun e => toArray e.2)

structure Progress (V : Type) where
  env : Env V
  fake : List String
  runs : List NodeRun

variable (randomLike : V → String → Int → Except String V) (backend : Backend V) (sizes : Env V) (seed : Int)

/-- The outputs of a failed node: random values for those of known size. -/
def fillRandom : List String → Env V × List String → Except String (Env V × List String)
  | [], filled => .ok filled
  | o :: os, filled =>
    if o = "" then fillRandom os filled
    else
      match sizes o with
      | none => fillRandom os filled
      | some template =>
        match randomLike template o seed with
        | .error e => .error e
        | .ok v => fillRandom os (Function.update filled.1 o (some v), o :: filled.2)

def record (tainted : Bool) : List (String × V) → Env V × List String → Env V × List String
  | [], stored => stored
  | (o, v) :: rest, stored =>
    if o = "" then record tainted rest stored
    else
      record tainted rest
        (Function.update stored.1 o (some v), if tainted then o :: stored.2 else stored.2)

def operands (env : Env V) (node : Node) : List (Option V) :=
  node.inputs.map fun t => if t = "" then none else env t

def runNode (s : Progress V) (node : Node) : Except String (Progress V) :=
  let names := node.inputs.filter fun t => t ≠ ""
  let entry := fun status error => s.runs ++ [NodeRun.mk (nodeLabel node) node.opType status error]
  if names.any fun t => (s.env t).isNone then
    .ok { s with runs := entry .skipped "an input was not produced" }
  else
    match backend node (operands s.env node) with
    | .error e =>
      match fillRandom randomLike sizes seed node.outputs (s.env, s.fake) with
      | .error raised => .error raised
      | .ok filled => .ok ⟨filled.1, filled.2, entry .failed e⟩
    | .ok outs =>
      let stored := record (names.any fun t => t ∈ s.fake) (node.outputs.zip outs) (s.env, s.fake)
      .ok ⟨stored.1, stored.2, entry .ran ""⟩

def runNodes : List Node → Progress V → Except String (Progress V)
  | [], s => .ok s
  | node :: nodes, s =>
    match runNode randomLike backend sizes seed s node with
    | .error e => .error e
    | .ok s => runNodes nodes s

def reported (s : Progress V) (name : String) : Option V := if name ∈ s.fake then none else s.env name

/-- `run_partial`; an error is an exception that leaves it. -/
def runPartial (toArray : τ → V) (g : Graph τ) (feeds : Env V) : Except String (PartialRun V) :=
  match runNodes randomLike backend sizes seed g.nodes ⟨given toArray g feeds, [], []⟩ with
  | .error e => .error e
  | .ok s => .ok ⟨g.outputs.eraseDups.map fun name => (name, reported s name), s.runs⟩

end

/-- `v` is the value of a tensor by the backend alone, from the given tensors and the nodes above it. -/
inductive Derived (nodes : List Node) (start : Env V) (backend : Backend V) : String → V → Prop
  | start {t : String} {v : V} : start t = some v → Derived nodes start backend t v
  | computed {node : Node} {args : String → V} {outs : List V} {o : String} {v : V} :
      node ∈ nodes →
      (∀ t ∈ node.inputs, t ≠ "" → Derived nodes start backend t (args t)) →
      backend node (operands (fun t => some (args t)) node) = .ok outs →
      (o, v) ∈ node.outputs.zip outs → o ≠ "" → Derived nodes start backend o v

/-- Every tensor has one origin: a given tensor or one output of one node. -/
structure SingleAssignment (nodes : List Node) (start : Env V) : Prop where
  distinct : (nodes.flatMap fun n => n.outputs.filter fun o => o ≠ "").Nodup
  produced : ∀ n ∈ nodes, ∀ o ∈ n.outputs, o ≠ "" → start o = none

variable {node : Node} {o : String} {v : V} {os : List String}

section

variable {nodes : List Node} {start : Env V} {backend : Backend V}

theorem operands_congr {env env' : Env V} (h : ∀ t ∈ node.inputs, t ≠ "" → env t = env' t) :
    operands env node = operands env' node := by
  apply map_congr_left
  intro t ht
  by_cases hempty : t = ""
  · simp [hempty]
  · simp [hempty, h t ht hempty]

theorem SingleAssignment.producer_unique (hssa : SingleAssignment nodes start) {n m : Node} (hn : n ∈ nodes)
    (hm : m ∈ nodes) (hno : o ∈ n.outputs) (hmo : o ∈ m.outputs) (hne : o ≠ "") : n = m := by
  by_contra hdiff
  have hpair := (nodup_flatMap.mp hssa.distinct).2
  have hsymm : Std.Symm (Function.onFun List.Disjoint fun n : Node => n.outputs.filter fun o => o ≠ "") :=
    ⟨fun _ _ h _ hm hn => h hn hm⟩
  have hdisjoint := hpair.forall hn hm hdiff
  apply hdisjoint
  · exact mem_filter.mpr ⟨hno, decide_eq_true hne⟩
  · exact mem_filter.mpr ⟨hmo, decide_eq_true hne⟩

theorem zip_unique {vs : List V} {w : V} (hnodup : (os.filter fun o => o ≠ "").Nodup) (hne : o ≠ "")
    (hv : (o, v) ∈ os.zip vs) (hw : (o, w) ∈ os.zip vs) : v = w := by
  induction os generalizing vs with
  | nil => simp at hv
  | cons p os ih =>
    cases vs with
    | nil => simp at hv
    | cons u us =>
      by_cases hp : p = o
      · subst hp
        have hfresh : p ∉ os := by
          intro hmem
          simp [hne, hmem] at hnodup
        have hrest : ∀ x, (p, x) ∉ os.zip us := fun x hx => hfresh (of_mem_zip hx).1
        have hvu : v = u := by simpa [hrest] using hv
        have hwu : w = u := by simpa [hrest] using hw
        rw [hvu, hwu]
      · have hne' : o ≠ p := fun h => hp h.symm
        apply ih
        · by_cases hempty : p = ""
          · simpa [hempty] using hnodup
          · simp only [hempty, ne_eq, not_false_eq_true, decide_true, filter_cons_of_pos] at hnodup
            exact (nodup_cons.mp hnodup).2
        · simpa [hne'] using hv
        · simpa [hne'] using hw

theorem Derived.unique (hssa : SingleAssignment nodes start) {t : String} {w : V}
    (hv : Derived nodes start backend t v) (hw : Derived nodes start backend t w) : v = w := by
  induction hv generalizing w with
  | start hstart =>
    cases hw with
    | start hstart' =>
      rw [hstart] at hstart'
      exact Option.some.inj hstart'
    | computed hmem _ _ hzip hne =>
      have hnone := hssa.produced _ hmem _ (of_mem_zip hzip).1 hne
      rw [hstart] at hnone
      cases hnone
  | computed hmem hargs hrun hzip hne ih =>
    cases hw with
    | start hstart' =>
      have hnone := hssa.produced _ hmem _ (of_mem_zip hzip).1 hne
      rw [hstart'] at hnone
      cases hnone
    | computed hmem' hargs' hrun' hzip' _ =>
      obtain rfl := hssa.producer_unique hmem hmem' (of_mem_zip hzip).1 (of_mem_zip hzip').1 hne
      have hsame := operands_congr fun t ht hempty => congrArg some (ih t ht hempty (hargs' t ht hempty))
      rw [hsame, hrun'] at hrun
      obtain rfl := Except.ok.inj hrun
      exact zip_unique ((nodup_flatMap.mp hssa.distinct).1 _ hmem) hne hzip hzip'

variable {randomLike : V → String → Int → Except String V} {sizes : Env V} {seed : Int}

/-- A tensor outside the fake ones has a value that the backend alone gives. -/
def Untainted (nodes : List Node) (start : Env V) (backend : Backend V) (stored : Env V × List String) : Prop :=
  ∀ t v, t ∉ stored.2 → stored.1 t = some v → Derived nodes start backend t v

variable {stored : Env V × List String} {s s' : Progress V}

theorem Untainted.update (h : Untainted nodes start backend stored) {fake : List String}
    (hkept : ∀ t ∈ stored.2, t ∈ fake) (ho : o ∈ fake ∨ Derived nodes start backend o v) :
    Untainted nodes start backend (Function.update stored.1 o (some v), fake) := by
  intro t w hfake hw
  by_cases heq : t = o
  · subst heq
    simp only [Function.update_self, Option.some.injEq] at hw
    subst hw
    exact ho.resolve_left hfake
  · simp only [Function.update_of_ne heq] at hw
    exact h t w (fun hmem => hfake (hkept t hmem)) hw

theorem fillRandom_untainted {filled : Env V × List String}
    (hfill : fillRandom randomLike sizes seed os stored = .ok filled) (h : Untainted nodes start backend stored) :
    Untainted nodes start backend filled := by
  induction os generalizing stored with
  | nil =>
    obtain rfl := Except.ok.inj hfill
    exact h
  | cons o os ih =>
    unfold fillRandom at hfill
    by_cases hempty : o = ""
    · rw [if_pos hempty] at hfill
      exact ih hfill h
    · rw [if_neg hempty] at hfill
      cases hsize : sizes o with
      | none => exact ih (by simpa [hsize] using hfill) h
      | some template =>
        cases hrandom : randomLike template o seed with
        | error e => simp [hsize, hrandom] at hfill
        | ok v =>
          simp only [hsize, hrandom] at hfill
          exact ih hfill (h.update (fun t => mem_cons_of_mem o) (.inl mem_cons_self))

theorem record_untainted {tainted : Bool} {results : List (String × V)}
    (hresults : tainted = false → ∀ o v, (o, v) ∈ results → o ≠ "" → Derived nodes start backend o v)
    (h : Untainted nodes start backend stored) :
    Untainted nodes start backend (record tainted results stored) := by
  induction results generalizing stored with
  | nil => exact h
  | cons result rest ih =>
    obtain ⟨o, v⟩ := result
    have hrest := fun ht p w hmem => hresults ht p w (mem_cons_of_mem (o, v) hmem)
    unfold record
    by_cases hempty : o = ""
    · rw [if_pos hempty]
      exact ih hrest h
    · rw [if_neg hempty]
      apply ih hrest
      cases tainted with
      | true => exact h.update (fun t => mem_cons_of_mem o) (.inl mem_cons_self)
      | false => exact h.update (fun t => id) (.inr (hresults rfl o v mem_cons_self hempty))

theorem results_derived {outs : List V} (hmem : node ∈ nodes) (h : Untainted nodes start backend (s.env, s.fake))
    (hpresent : ∀ t ∈ node.inputs, t ≠ "" → (s.env t).isSome) (hclean : ∀ t ∈ node.inputs, t ≠ "" → t ∉ s.fake)
    (hrun : backend node (operands s.env node) = .ok outs) (hzip : (o, v) ∈ node.outputs.zip outs) (hne : o ≠ "") :
    Derived nodes start backend o v := by
  have hvalue : ∀ t ∈ node.inputs, t ≠ "" → s.env t = some ((s.env t).getD v) := by
    intro t ht hempty
    obtain ⟨w, hw⟩ := Option.isSome_iff_exists.mp (hpresent t ht hempty)
    rw [hw, Option.getD_some]
  refine @Derived.computed V nodes start backend node (fun t => (s.env t).getD v) outs o v hmem ?_ ?_ hzip hne
  · intro t ht hempty
    exact h t _ (hclean t ht hempty) (hvalue t ht hempty)
  · rw [operands_congr hvalue] at hrun
    exact hrun

theorem runNode_untainted (hmem : node ∈ nodes) (hstep : runNode randomLike backend sizes seed s node = .ok s')
    (h : Untainted nodes start backend (s.env, s.fake)) :
    Untainted nodes start backend (s'.env, s'.fake) := by
  unfold runNode at hstep
  by_cases hmissing : (node.inputs.filter fun t => t ≠ "").any fun t => (s.env t).isNone
  · simp only [hmissing, if_true] at hstep
    obtain rfl := Except.ok.inj hstep
    exact h
  · simp only [hmissing] at hstep
    cases hrun : backend node (operands s.env node) with
    | error e =>
      cases hfill : fillRandom randomLike sizes seed node.outputs (s.env, s.fake) with
      | error raised => simp [hrun, hfill] at hstep
      | ok filled =>
        simp only [hrun, hfill] at hstep
        obtain rfl := Except.ok.inj hstep
        exact fillRandom_untainted hfill h
    | ok outs =>
      simp only [hrun] at hstep
      obtain rfl := Except.ok.inj hstep
      apply record_untainted ?_ h
      intro hclean o v hzip hne
      refine results_derived hmem h ?_ ?_ hrun hzip hne
      · intro t ht hempty
        by_contra hnone
        apply hmissing
        simp only [List.any_eq_true, mem_filter]
        exact ⟨t, ⟨ht, by simpa using hempty⟩, by simpa using hnone⟩
      · intro t ht hempty hfake
        simp only [List.any_eq_false, mem_filter] at hclean
        exact hclean t ⟨ht, by simpa using hempty⟩ (by simpa using hfake)

theorem runNodes_untainted {todo : List Node} (hsub : ∀ n ∈ todo, n ∈ nodes)
    (hrun : runNodes randomLike backend sizes seed todo s = .ok s')
    (h : Untainted nodes start backend (s.env, s.fake)) :
    Untainted nodes start backend (s'.env, s'.fake) := by
  induction todo generalizing s with
  | nil =>
    obtain rfl := Except.ok.inj hrun
    exact h
  | cons node todo ih =>
    unfold runNodes at hrun
    cases hstep : runNode randomLike backend sizes seed s node with
    | error e => simp [hstep] at hrun
    | ok next =>
      simp only [hstep] at hrun
      have hnext := runNode_untainted (hsub node mem_cons_self) hstep h
      exact ih (fun n hn => hsub n (mem_cons_of_mem node hn)) hrun hnext

theorem reported_derived {toArray : τ → V} {g : Graph τ} {feeds : Env V} {run : PartialRun V}
    (hrun : runPartial randomLike backend sizes seed toArray g feeds = .ok run) {name : String}
    (hmem : (name, some v) ∈ run.outputs) : Derived g.nodes (given toArray g feeds) backend name v := by
  unfold runPartial at hrun
  cases hnodes : runNodes randomLike backend sizes seed g.nodes ⟨given toArray g feeds, [], []⟩ with
  | error e => simp [hnodes] at hrun
  | ok s =>
    simp only [hnodes] at hrun
    obtain rfl := Except.ok.inj hrun
    have hstart : Untainted g.nodes (given toArray g feeds) backend (given toArray g feeds, []) :=
      fun t v _ hv => Derived.start hv
    have hend := runNodes_untainted (fun n hn => hn) hnodes hstart
    obtain ⟨other, -, heq⟩ := List.mem_map.mp hmem
    obtain ⟨rfl, hv⟩ := Prod.mk.inj heq
    unfold reported at hv
    by_cases hfake : other ∈ s.fake
    · simp [hfake] at hv
    · rw [if_neg hfake] at hv
      exact hend other v hfake hv

end

variable (toArray : τ → V) (randomLike : V → String → Int → Except String V) (backend : Backend V)

/-- Whatever the fills, a reported output is what the backend alone computes; where every tensor has one
origin that is one value, the same in every run. -/
theorem runPartial_leaks_nothing (g : Graph τ) (feeds : Env V) :
    (∀ sizes seed run, runPartial randomLike backend sizes seed toArray g feeds = .ok run →
      ∀ name v, (name, some v) ∈ run.outputs → Derived g.nodes (given toArray g feeds) backend name v) ∧
    (SingleAssignment g.nodes (given toArray g feeds) →
      ∀ sizes₁ seed₁ run₁ sizes₂ seed₂ run₂,
        runPartial randomLike backend sizes₁ seed₁ toArray g feeds = .ok run₁ →
        runPartial randomLike backend sizes₂ seed₂ toArray g feeds = .ok run₂ →
        ∀ name v₁ v₂, (name, some v₁) ∈ run₁.outputs → (name, some v₂) ∈ run₂.outputs →
          v₁ = v₂ ∧ ∀ w, Derived g.nodes (given toArray g feeds) backend name w ↔ w = v₁) := by
  constructor
  · intro sizes seed run hrun name v hmem
    exact reported_derived hrun hmem
  · intro hssa sizes₁ seed₁ run₁ sizes₂ seed₂ run₂ hrun₁ hrun₂ name v₁ v₂ hmem₁ hmem₂
    have hv₁ := reported_derived hrun₁ hmem₁
    have hv₂ := reported_derived hrun₂ hmem₂
    constructor
    · exact hv₁.unique hssa hv₂
    · intro w
      constructor
      · intro hw
        exact hw.unique hssa hv₁
      · intro hw
        rw [hw]
        exact hv₁

def plain (opType : String) (inputs outputs : List String) : Node := ⟨"", "", opType, inputs, outputs, []⟩

def shifted (template : Nat) (_ : String) (seed : Int) : Except String Nat := .ok (template + seed.toNat)

/-- A backend that knows `Inc` at one point only. -/
def incOne : Backend Nat := fun node args =>
  if node.opType = "Inc" ∧ args = [some 1] then .ok [2] else .error "NotImplementedError"

def known (t : String) (v : Nat) : Env Nat := fun s => if s = t then some v else none

def fedTwice : Graph Nat := ⟨[plain "Custom" [] ["o"], plain "Inc" ["o"] ["x"]], [], [], ["x"]⟩

def fedOutputs : Env Nat := fun t => if t = "o" then some 1 else known "x" 5 t

/-- Without a size for `o` the fed value stays and feeds `x`; with one `x` keeps its own fed value. -/
theorem fed_outputs_disagree :
    ∃ run₁ run₂, runPartial shifted incOne (fun _ => none) 0 id fedTwice fedOutputs = .ok run₁ ∧
      runPartial shifted incOne (known "o" 7) 0 id fedTwice fedOutputs = .ok run₂ ∧
      ("x", some 2) ∈ run₁.outputs ∧ ("x", some 5) ∈ run₂.outputs := by
  refine ⟨⟨[("x", some 2)], [⟨"Custom:o", "Custom", .failed, "NotImplementedError"⟩, ⟨"Inc:x", "Inc", .ran, ""⟩]⟩,
    ⟨[("x", some 5)], [⟨"Custom:o", "Custom", .failed, "NotImplementedError"⟩,
      ⟨"Inc:x", "Inc", .failed, "NotImplementedError"⟩]⟩, ?_, ?_, ?_, ?_⟩
  · rfl
  · rfl
  · simp
  · simp

def twoNodes : Graph Nat :=
  ⟨[plain "Custom" ["i"] ["o"], plain "Inc" ["i"] ["y"], plain "Inc" ["o"] ["z"]], [], ["i"], ["z", "y"]⟩

def ranAndFailed : PartialRun Nat :=
  ⟨[("z", none), ("y", some 2)], [⟨"Custom:o", "Custom", .failed, "NotImplementedError"⟩, ⟨"Inc:y", "Inc", .ran, ""⟩,
    ⟨"Inc:z", "Inc", .ran, ""⟩]⟩

def ranAndSkipped : PartialRun Nat :=
  ⟨[("z", none), ("y", some 2)], [⟨"Custom:o", "Custom", .failed, "NotImplementedError"⟩, ⟨"Inc:y", "Inc", .ran, ""⟩,
    ⟨"Inc:z", "Inc", .skipped, "an input was not produced"⟩]⟩

theorem twoNodes_leak_nothing :
    runPartial shifted incOne (known "o" 1) 0 id twoNodes (known "i" 1) = .ok ranAndFailed ∧
      runPartial shifted incOne (fun _ => none) 0 id twoNodes (known "i" 1) = .ok ranAndSkipped ∧
      ∀ w, Derived twoNodes.nodes (given id twoNodes (known "i" 1)) incOne "y" w ↔ w = 2 := by
  have hssa : SingleAssignment twoNodes.nodes (given id twoNodes (known "i" 1)) := ⟨by decide, by decide⟩
  have hfirst : runPartial shifted incOne (known "o" 1) 0 id twoNodes (known "i" 1) = .ok ranAndFailed := rfl
  have hsecond : runPartial shifted incOne (fun _ => none) 0 id twoNodes (known "i" 1) = .ok ranAndSkipped := rfl
  exact ⟨hfirst, hsecond,
    ((runPartial_leaks_nothing id shifted incOne twoNodes (known "i" 1)).2 hssa _ _ _ _ _ _ hfirst hsecond
      "y" 2 2 (by decide) (by decide)).2⟩

end Onnxsim.Versioning.PartialRuns
