import Onnxsim.Passes.ScalarOutputs

namespace Onnxsim.Passes.ScalarOutputs

open List Option Lib Lib.NodeRuns
open Overflow.Arrays PartialShape.Reshaping
open Gathers (place)
open Reduce.Axes (reduceWith reduceWith_toggle reducedShape reducedShape_nil)
open Reduce.Fusion (Dimension)

variable {α : Type}

section

variable {M : Meaning α} {n : Node} {ins : List (Option (NDArray α))} {x y : NDArray α} {r : Nat}

theorem axesMask_all (r : Nat) : axesMask r (allAxes r) = some (List.replicate r true) := by
  have hplaces : ∀ l : List Nat, (∀ i ∈ l, i < r) → (l.map fun i : Nat => (i : Int)).mapM (place r) = some l := by
    intro l
    induction l with
    | nil => exact fun _ => rfl
    | cons i l ih =>
      intro hl
      have hi : place r (i : Int) = some i := Gathers.place_eq_some.mpr ⟨hl i mem_cons_self, .inl rfl⟩
      have hrest := ih fun j hj => hl j (mem_cons_of_mem i hj)
      rw [map_cons, mapM_cons, hi, hrest]
      rfl
  rw [axesMask, allAxes, hplaces (List.range r) fun i hi => mem_range.mp hi, map_some]
  apply congrArg some
  rw [eq_replicate_iff]
  refine ⟨by simp, ?_⟩
  intro b hb
  obtain ⟨i, hi, rfl⟩ := List.mem_map.mp hb
  simpa using hi

theorem evalReduce_keepdims (h : evalReduce M n ins = some y) :
    ∃ y', evalReduce M { n with keepdims := some 1 } ins = some y' ∧ y'.data = y.data := by
  have hkeep : ∀ f mask (x : NDArray α), (reduceWith f true mask x).data =
      (reduceWith f (decide (n.keepdims.getD 1 ≠ 0)) mask x).data := by
    intro f mask x
    cases decide (n.keepdims.getD 1 ≠ 0) with
    | true => rfl
    | false => exact reduceWith_toggle f x
  unfold evalReduce at h
  split at h
  · next x rest =>
    have hsame : spelled M.toIntegers { n with keepdims := some 1 } (rest.headD none) =
        spelled M.toIntegers n (rest.headD none) := rfl
    have hone : decide ((some (1 : Int)).getD 1 ≠ 0) = true := rfl
    unfold evalReduce
    dsimp only
    rw [hsame, hone]
    cases hspelled : spelled M.toIntegers n (rest.headD none) with
    | some axes =>
      rw [hspelled] at h
      obtain ⟨mask, hmask, rfl⟩ := map_eq_some_iff.mp h
      dsimp only
      rw [hmask]
      exact ⟨_, rfl, hkeep _ mask x⟩
    | none =>
      rw [hspelled] at h
      split_ifs at h ⊢ with hnoop
      · obtain rfl := Option.some.inj h
        exact ⟨x, rfl, rfl⟩
      · obtain rfl := Option.some.inj h
        exact ⟨_, rfl, hkeep _ _ x⟩
  · cases h

theorem evalReduce_allAxes {k : Node} {l : List (Option (NDArray α))}
    (h : evalReduce M n [some x] = some y) (hy : y.shape = []) (hr : r ≠ 0) (hx : x.shape.length = r)
    (haxes : n.axes = none) (hkind : k.kind = n.kind) (hkeepdims : k.keepdims = some 1)
    (hspelled : spelled M.toIntegers k (l.headD none) = some (allAxes r)) :
    ∃ y', evalReduce M k (some x :: l) = some y' ∧ y'.data = y.data := by
  have hnone : spelled M.toIntegers n (([] : List (Option (NDArray α))).headD none) = none := by
    rw [spelled, haxes]
    rfl
  have hone : decide (k.keepdims.getD 1 ≠ 0) = true := by rw [hkeepdims]; rfl
  unfold evalReduce at h ⊢
  dsimp only at h ⊢
  rw [hnone] at h
  rw [hspelled, hone, hx, hkind]
  dsimp only at h ⊢
  rw [axesMask_all, map_some]
  refine ⟨_, rfl, ?_⟩
  split_ifs at h with hnoop
  · obtain rfl := Option.some.inj h
    rw [hy] at hx
    exact absurd hx.symm hr
  · obtain rfl := Option.some.inj h
    rw [hx]
    cases decide (n.keepdims.getD 1 ≠ 0) with
    | true => rfl
    | false => exact reduceWith_toggle _ x

theorem spelled_axes (Z : Integers α) (hr : r ≠ 0) :
    (n.axes = some (allAxes r) → spelled Z n none = some (allAxes r)) ∧
      (n.axes = none → spelled Z n (some (ints Z (allAxes r))) = some (allAxes r)) := by
  have hne : (!(allAxes r).isEmpty) = true := by
    cases r with
    | zero => exact absurd rfl hr
    | succ r => simp [allAxes]
  have hround : (ints Z (allAxes r)).data.map Z.toInt = allAxes r := by
    show ((allAxes r).map Z.ofInt).map Z.toInt = allAxes r
    rw [List.map_map]
    exact (map_congr_left fun i _ => Z.toInt_ofInt i).trans (List.map_id _)
  constructor
  · intro haxes
    rw [spelled, haxes, some_or, filter_some, if_pos hne]
  · intro haxes
    rw [spelled, haxes, none_or, map_some, hround, filter_some, if_pos hne]

theorem evalReshape_one (hlen : x.data.length = 1) :
    ∃ v, x.data = [v] ∧ evalReshape M [some x, some (ints M.toIntegers [1])] = some ⟨[1], [v], rfl⟩ := by
  obtain ⟨v, hv⟩ := length_eq_one_iff.mp hlen
  have hone : (ints M.toIntegers [1]).data.map M.toInt = [1] := by
    show [M.toInt (M.ofInt 1)] = [1]
    rw [M.toInt_ofInt]
  have htarget : targetDims false x.shape [1] = some [1] := by
    have hentries : entryDims false x.shape 0 [1] = some [some 1] := rfl
    have hprod : x.shape.prod = 1 := x.length_data.symm.trans hlen
    rw [targetDims, hentries, bind_some, hprod]
    rfl
  have hfit : x.data.length = [1].prod := by rw [hlen]; rfl
  refine ⟨v, hv, ?_⟩
  unfold evalReshape
  dsimp only
  rw [hone, htarget, bind_some, dif_pos hfit]
  congr 1
  obtain ⟨shape, data, hdata⟩ := x
  subst hv
  rfl

variable {g : Graph α} {v : Nat} {feed : String → Option (NDArray α)} {env : Env Nat (NDArray α)}

theorem solves_run (hwf : g.WellFormed) : g.run M feed = some env ↔
    (∀ n ∈ g.nodes, Solves (behaviour M) n env) ∧ ∀ x, x ∉ g.nodes.flatMap Node.outputs → env x = g.start feed x :=
  run_eq_some_iff (b := behaviour M) hwf.ordered hwf.single

theorem eval_reads (n : Node) (s : Env Nat (NDArray α)) :
    (behaviour M).eval n (((behaviour M).reads n).map s) = evalNode M n (n.inputs.map s) (n.captured.map s) := by
  show evalNode M n ((n.reads.map s).take n.inputs.length) ((n.reads.map s).drop n.inputs.length) = _
  have hlen : n.inputs.length = (n.inputs.map s).length := (length_map _).symm
  rw [Node.reads, map_append, hlen, take_left, drop_left]

theorem exists_value (hwf : g.WellFormed) (hfed : v ∉ g.inputs) (hout : v ∈ g.outputs) (hrun : g.run M feed = some env) :
    ∃ t, env v = some t := by
  obtain ⟨hsolves, hstart⟩ := (solves_run hwf).mp hrun
  obtain hin | ⟨t, ht⟩ | hmade := hwf.defined v hout
  · exact absurd hin hfed
  · rw [hstart v (hwf.given v (.inr ⟨t, ht⟩)), Graph.start, if_neg hfed]
    cases hlookup : g.initializers.lookup v with
    | some t => exact ⟨t, rfl⟩
    | none =>
      have hne := lookup_eq_none_iff.mp hlookup (v, t) ht
      simp at hne
  · obtain ⟨n, hn, hv⟩ := mem_flatMap.mp hmade
    obtain ⟨ys, -, hys⟩ := hsolves n hn
    have hmem : env v ∈ n.outputs.map env := List.mem_map_of_mem hv
    have hmem' : env v ∈ ys.map some := hys ▸ hmem
    obtain ⟨y, -, hy⟩ := List.mem_map.mp hmem'
    exact ⟨y, hy.symm⟩

variable {s : Env Nat (NDArray α)}

theorem of_solves_reduce (hdomain : n.domain.getD "" = "") (hkind : isHandledReduceKind n.kind = true)
    (hv : v ∈ n.outputs) (h : Solves (behaviour M) n s) :
    n.outputs = [v] ∧ ∃ y, evalReduce M n (n.inputs.map s) = some y ∧ s v = some y := by
  obtain ⟨ys, heval, hys⟩ := h
  rw [eval_reads, evalNode, if_pos ⟨hdomain, hkind⟩] at heval
  obtain ⟨y, hy, rfl⟩ := map_eq_some_iff.mp heval
  have hlen : n.outputs.length = 1 := by
    have hlens := congrArg List.length hys
    simpa [behaviour] using hlens
  obtain ⟨o, ho⟩ := length_eq_one_iff.mp hlen
  rw [ho] at hv
  obtain rfl := mem_singleton.mp hv
  refine ⟨ho, y, hy, ?_⟩
  have hwritten : n.outputs.map s = [some y] := hys
  rw [ho] at hwritten
  exact head_eq_of_cons_eq hwritten

theorem solves_reduce {y : NDArray α} (hdomain : n.domain.getD "" = "") (hkind : isHandledReduceKind n.kind = true)
    (ho : n.outputs = [v]) (hy : evalReduce M n (n.inputs.map s) = some y) (hv : s v = some y) :
    Solves (behaviour M) n s := by
  refine ⟨[y], ?_, ?_⟩
  · rw [eval_reads, evalNode, if_pos ⟨hdomain, hkind⟩, hy, map_some]
  · show n.outputs.map s = [some y]
    rw [ho, map_singleton, hv]

theorem exists_reduced (hready : g.Ready v) (hwf : g.WellFormed) (hn : n ∈ g.nodes) (hedited : isEdited v n = true)
    (hchanged : editNode g v n ≠ n) (hsolves : Solves (behaviour M) n env) (hranks : g.RanksHold env) {t : NDArray α}
    (ht : env v = some t) (hshape : t.shape = []) :
    ∃ t' : NDArray α, t'.data = t.data ∧ ∀ s : Env Nat (NDArray α), (∀ u < g.next, u ≠ v → s u = env u) → s v = some t' →
      (∀ r, spelledRank g.sizes n = some r → 18 ≤ g.opset → s g.next = some (ints M.toIntegers (allAxes r))) →
      Solves (behaviour M) (editNode g v n) s := by
  obtain ⟨hv, hkind, hne⟩ := isEdited_iff.mp hedited
  have hdomain : n.domain.getD "" = "" := by
    obtain hdomain | ⟨hkeep, hs⟩ := (hready.editable n hn hedited).1
    · exact hdomain
    · refine absurd ?_ hchanged
      rw [editNode_implicit hedited hs, ← hkeep]
  obtain ⟨ho, y, hy, hyt⟩ := of_solves_reduce hdomain hkind hv hsolves
  obtain rfl : y = t := Option.some.inj (hyt.symm.trans ht)
  have hins : ∀ s : Env Nat (NDArray α), (∀ u < g.next, u ≠ v → s u = env u) → n.inputs.map s = n.inputs.map env := by
    intro s hs
    apply map_congr_left
    intro u hu
    have hread : u ∈ n.reads := mem_append_left _ hu
    refine hs u (hwf.below u (.inr (.inr (.inr ⟨n, hn, .inl hread⟩)))) ?_
    rintro rfl
    exact hready.unread n hn hread
  -- with axes to spell out, the node has one operand, the rank of which is recorded
  have hoperand : ∀ r, spelledRank g.sizes n = some r → r ≠ 0 ∧ n.axes = none ∧
      ∃ x, n.inputs.map env = [some x] ∧ x.shape.length = r := by
    intro r hr
    obtain ⟨hnamed, hr0, x, ds, hx, hds, hlen⟩ := spelledRank_eq_some.mp hr
    have hnamed' : n.axes = none ∧ n.inputs.length ≤ 1 := by simpa [named] using hnamed
    have hsingle : n.inputs = [x] := by
      cases hinputs : n.inputs with
      | nil => exact absurd hinputs hne
      | cons u rest =>
        rw [hinputs] at hnamed' hx
        have hrest : rest = [] := length_eq_zero_iff.mp (by simpa using hnamed'.2)
        rw [hrest, Option.some.inj hx]
    rw [hsingle] at hy ⊢
    rw [map_singleton] at hy ⊢
    cases hval : env x with
    | none =>
      rw [hval] at hy
      cases hy
    | some tx =>
      refine ⟨hr0, hnamed'.1, tx, rfl, ?_⟩
      rw [hranks x tx ds (.inr ⟨n, hn, hkind, hx⟩) hval hds, hlen]
  obtain ⟨hno, -⟩ | ⟨-, hs, heq⟩ | ⟨r, -, hs, hopset, heq⟩ | ⟨r, -, hs, hopset, heq⟩ := editNode_cases g v n
  · rw [hedited] at hno
    cases hno
  · obtain ⟨y', hy', hdata⟩ := evalReduce_keepdims hy
    refine ⟨y', hdata, ?_⟩
    intro s hold hnew _
    rw [heq]
    refine solves_reduce hdomain hkind ho ?_ hnew
    show evalReduce M _ (n.inputs.map s) = some y'
    rw [hins s hold, hy']
  · obtain ⟨hr0, haxes, x, hx, hlen⟩ := hoperand r hs
    rw [hx] at hy
    obtain ⟨y', hy', hdata⟩ := evalReduce_allAxes (k := { n with keepdims := some 1, inputs := n.inputs ++ [g.next] })
      (l := [some (ints M.toIntegers (allAxes r))]) hy hshape hr0 hlen haxes rfl rfl
      ((spelled_axes M.toIntegers hr0).2 haxes)
    refine ⟨y', hdata, ?_⟩
    intro s hold hnew haxesval
    rw [heq]
    refine solves_reduce hdomain hkind ho ?_ hnew
    show evalReduce M _ ((n.inputs ++ [g.next]).map s) = some y'
    rw [map_append, hins s hold, hx, map_singleton, haxesval r hs hopset]
    exact hy'
  · obtain ⟨hr0, haxes, x, hx, hlen⟩ := hoperand r hs
    rw [hx] at hy
    obtain ⟨y', hy', hdata⟩ := evalReduce_allAxes (k := { n with keepdims := some 1, axes := some (allAxes r) })
      (l := []) hy hshape hr0 hlen haxes rfl rfl ((spelled_axes M.toIntegers hr0).1 rfl)
    refine ⟨y', hdata, ?_⟩
    intro s hold hnew _
    rw [heq]
    refine solves_reduce hdomain hkind ho ?_ hnew
    show evalReduce M _ (n.inputs.map s) = some y'
    rw [hins s hold, hx]
    exact hy'

variable {Z : Integers α} {N : Namer α} {u : Nat} (h : g.sizes v = some [])

include h

theorem handled_nodes : (handleOutput Z N g v).nodes =
    (g.nodes.map (editNode g v)).map (Node.redirect v (g.next + 2)) ++ [reshapeNode v (g.next + 1) (g.next + 2)] := by
  rw [handleOutput, if_pos h]
  rfl

theorem handled_outputs : (handleOutput Z N g v).outputs = g.outputs.map (redirect v (g.next + 2)) := by
  rw [handleOutput, if_pos h]
  rfl

theorem handled_initializers : (handleOutput Z N g v).initializers =
    g.initializers ++ newAxes Z g v ++ [(g.next + 1, ints Z [1])] := by
  rw [handleOutput, if_pos h]
  rfl

theorem handled_sizes : (handleOutput Z N g v).sizes = Function.update g.sizes (g.next + 2) (some [.size 1]) := by
  rw [handleOutput, if_pos h]
  rfl

theorem handled_name : (handleOutput Z N g v).name =
    Function.update (Function.update g.name v (N.uniqueName (editProducer Z g v))) (g.next + 2) (g.name v) := by
  rw [handleOutput, if_pos h]
  rfl

theorem handled_next : (handleOutput Z N g v).next = g.next + 3 := by
  rw [handleOutput, if_pos h]
  rfl

omit h

@[simp]
theorem handled_inputs : (handleOutput Z N g v).inputs = g.inputs := by
  unfold handleOutput
  split_ifs
  · rfl
  · rfl

@[simp]
theorem handled_opset : (handleOutput Z N g v).opset = g.opset := by
  unfold handleOutput
  split_ifs
  · rfl
  · rfl

theorem next_le : g.next ≤ (handleOutput Z N g v).next := by
  by_cases h : g.sizes v = some []
  · rw [handled_next h]
    omega
  · rw [handleOutput, if_neg h]

theorem sizes_old (hu : u < g.next) : (handleOutput Z N g v).sizes u = g.sizes u := by
  by_cases h : g.sizes v = some []
  · rw [handled_sizes h, Function.update_of_ne (by omega)]
  · rw [handleOutput, if_neg h]

theorem name_old (hu : u < g.next) (hne : u ≠ v) : (handleOutput Z N g v).name u = g.name u := by
  by_cases h : g.sizes v = some []
  · rw [handled_name h, Function.update_of_ne (by omega), Function.update_of_ne hne]
  · rw [handleOutput, if_neg h]

theorem name_new (h : g.sizes v = some []) : (handleOutput Z N g v).name (g.next + 2) = g.name v := by
  rw [handled_name h, Function.update_self]

theorem flatMap_edited : (g.nodes.map (editNode g v)).flatMap Node.outputs = g.nodes.flatMap Node.outputs := by
  rw [flatMap_map]
  exact flatMap_congr fun n _ => editNode_outputs

theorem mem_newAxes {a : NDArray α} (h : (u, a) ∈ newAxes Z g v) : u = g.next := by
  unfold newAxes at h
  split at h
  · split_ifs at h
    · exact congrArg Prod.fst (mem_singleton.mp h)
    · cases h
  · cases h

end

variable {Z : Integers α} {N : Namer α} {g : Graph α} {v w u : Nat} {n : Node}

theorem below_reads (hwf : g.WellFormed) (hn : n ∈ g.nodes) (hu : u ∈ n.reads) : u < g.next :=
  hwf.below u (.inr (.inr (.inr ⟨n, hn, .inl hu⟩)))

theorem below_writes (hwf : g.WellFormed) (hu : u ∈ g.nodes.flatMap Node.outputs) : u < g.next := by
  obtain ⟨n, hn, hun⟩ := mem_flatMap.mp hu
  exact hwf.below u (.inr (.inr (.inr ⟨n, hn, .inr hun⟩)))

theorem below_output (hwf : g.WellFormed) (hu : u ∈ g.outputs) : u < g.next := hwf.below u (.inr (.inr (.inl hu)))

theorem handled_nodes_ready (hwf : g.WellFormed) (hready : g.Ready v) (hout : v ∈ g.outputs) (h : g.sizes v = some []) :
    (handleOutput Z N g v).nodes = g.nodes.map (editNode g v) ++ [reshapeNode v (g.next + 1) (g.next + 2)] := by
  have hsame : (g.nodes.map (editNode g v)).map (Node.redirect v (g.next + 2)) = (g.nodes.map (editNode g v)).map id := by
    apply map_congr_left
    intro n' hn'
    obtain ⟨n, hn, rfl⟩ := List.mem_map.mp hn'
    apply redirect_of_unread
    intro hread
    obtain hread | heq := mem_reads_of_editNode hread
    · exact hready.unread n hn hread
    · have hlt := below_output hwf hout
      omega
  rw [handled_nodes h, hsame, List.map_id]

theorem flatMap_handled (hwf : g.WellFormed) (hready : g.Ready v) (hout : v ∈ g.outputs) (h : g.sizes v = some []) :
    (handleOutput Z N g v).nodes.flatMap Node.outputs = g.nodes.flatMap Node.outputs ++ [g.next + 2] := by
  rw [handled_nodes_ready hwf hready hout h, flatMap_append, flatMap_edited]
  rfl

theorem valid_editNode (hready : g.Ready v) (hn : n ∈ g.nodes) (hedited : isEdited v n = true)
    (hdomain : n.domain.getD "" = "") (hvalid : Valid g.opset n) : Valid g.opset (editNode g v n) := by
  obtain ⟨-, hkind, hne⟩ := isEdited_iff.mp hedited
  have hreshape := kind_ne_reshape hkind
  rw [Valid, if_neg hreshape] at hvalid
  obtain ⟨-, hinput, hattribute⟩ := hvalid
  rw [Valid, if_neg (by rwa [editNode_kind]), editNode_kind, editNode_domain]
  refine ⟨hdomain, ?_⟩
  obtain ⟨hno, -⟩ | ⟨-, hs, heq⟩ | ⟨r, -, hs, hopset, heq⟩ | ⟨r, -, hs, hopset, heq⟩ := editNode_cases g v n
  · rw [hedited] at hno
    cases hno
  · rw [heq]
    exact ⟨hinput, hattribute⟩
  · rw [heq]
    have hthere : axesAreInput n.kind g.opset := by
      unfold axesAreInput
      split_ifs
      · omega
      · exact hopset
    exact ⟨hinput, fun hnot => absurd hthere hnot⟩
  · rw [heq]
    obtain ⟨hnamed, -⟩ := spelledRank_eq_some.mp hs
    have hlen : n.inputs.length ≤ 1 := by
      have hparts : n.axes = none ∧ n.inputs.length ≤ 1 := by simpa [named] using hnamed
      exact hparts.2
    refine ⟨?_, fun _ => hlen⟩
    intro hthere
    unfold axesAreInput at hthere
    split_ifs at hthere with hsum
    · refine absurd ?_ (hready.editable n hn hedited).2
      exact ⟨hsum, hthere, by omega, by rw [hs]; exact some_ne_none r⟩
    · exact absurd hthere hopset

theorem edited_or_valid (hwf : g.WellFormed) (hready : g.Ready v) (hn : n ∈ g.nodes) :
    SameForm n (editNode g v n) ∨ Valid g.opset (editNode g v n) := by
  cases hedited : isEdited v n with
  | false =>
    rw [editNode_unedited hedited]
    exact .inl ⟨rfl, rfl, rfl, rfl, rfl⟩
  | true =>
    obtain hdomain | ⟨hkeep, hs⟩ := (hready.editable n hn hedited).1
    · exact .inr (valid_editNode hready hn hedited hdomain
        (hwf.reductions n hn (isEdited_iff.mp hedited).2.1 hdomain))
    · rw [editNode_implicit hedited hs]
      exact .inl ⟨rfl, rfl, hkeep.symm, rfl, rfl⟩

theorem wellFormed_handled (hwf : g.WellFormed) (hready : g.Ready v) (hout : v ∈ g.outputs) (h : g.sizes v = some []) :
    (handleOutput Z N g v).WellFormed := by
  have hnodes := handled_nodes_ready (Z := Z) (N := N) hwf hready hout h
  have hflat := flatMap_handled (Z := Z) (N := N) hwf hready hout h
  have hvlt := below_output hwf hout
  have hinit : ∀ x, (∃ t, (x, t) ∈ (handleOutput Z N g v).initializers) →
      (∃ t, (x, t) ∈ g.initializers) ∨ x = g.next ∨ x = g.next + 1 := by
    rintro x ⟨t, ht⟩
    rw [handled_initializers h, mem_append, mem_append] at ht
    obtain (ht | ht) | ht := ht
    · exact .inl ⟨t, ht⟩
    · exact .inr (.inl (mem_newAxes ht))
    · exact .inr (.inr (congrArg Prod.fst (mem_singleton.mp ht)))
  have hold : ∀ x, x ∈ g.nodes.flatMap Node.outputs → x < g.next := fun x hx => below_writes hwf hx
  constructor
  · rw [hnodes, ordered_append]
    refine ⟨ordered_map ?_ (fun n _ => editNode_outputs) hwf.ordered, ⟨?_, trivial⟩, ?_⟩
    · intro n _ x hx
      refine (mem_reads_of_editNode hx).imp_right ?_
      rintro rfl hmem
      have hlt := hold _ hmem
      omega
    · intro x hx hmem
      have hx' : x = v ∨ x = g.next + 1 := by simpa [Node.reads, reshapeNode] using hx
      have hmem' : x = g.next + 2 := by simpa [reshapeNode] using hmem
      omega
    · intro n' hn' x hx hmem
      obtain ⟨n, hn, rfl⟩ := List.mem_map.mp hn'
      have hmem' : x = g.next + 2 := by simpa [reshapeNode] using hmem
      obtain hread | heq := mem_reads_of_editNode hx
      · have hlt := below_reads hwf hn hread
        omega
      · omega
  · rw [hflat, nodup_append]
    refine ⟨hwf.single, nodup_singleton _, ?_⟩
    intro a ha b hb hab
    have hlt := hold a ha
    have hb' := mem_singleton.mp hb
    omega
  · intro x hx
    rw [hflat, mem_append, not_or, mem_singleton]
    rw [handled_inputs] at hx
    have hcases : (x ∈ g.inputs ∨ ∃ t, (x, t) ∈ g.initializers) ∨ x = g.next ∨ x = g.next + 1 := by
      obtain hx | hx := hx
      · exact .inl (.inl hx)
      · exact (hinit x hx).imp_left .inr
    obtain hold' | hnew := hcases
    · have hlt := hwf.below x (hold'.elim .inl fun ht => .inr (.inl ht))
      exact ⟨hwf.given x hold', by omega⟩
    · refine ⟨fun hmem => ?_, by omega⟩
      have hlt := hold x hmem
      omega
  · intro x hx
    rw [handled_outputs h] at hx
    obtain ⟨o, ho, rfl⟩ := List.mem_map.mp hx
    rw [hflat, handled_inputs]
    by_cases hov : o = v
    · rw [redirect, if_pos hov]
      exact .inr (.inr (mem_append_right _ (mem_singleton.mpr rfl)))
    · rw [redirect, if_neg hov]
      obtain hin | ⟨t, ht⟩ | hmade := hwf.defined o ho
      · exact .inl hin
      · refine .inr (.inl ⟨t, ?_⟩)
        rw [handled_initializers h]
        exact mem_append_left _ (mem_append_left _ ht)
      · exact .inr (.inr (mem_append_left _ hmade))
  · intro x hx
    rw [handled_next h]
    rw [handled_inputs, hnodes, handled_outputs h] at hx
    obtain hin | hinit' | hout' | ⟨n', hn', hx⟩ := hx
    · have hlt := hwf.below x (.inl hin)
      omega
    · obtain hx | hx := hinit x hinit'
      · have hlt := hwf.below x (.inr (.inl hx))
        omega
      · omega
    · obtain ⟨o, ho, rfl⟩ := List.mem_map.mp hout'
      have hlt := below_output hwf ho
      unfold redirect
      split_ifs
      · omega
      · omega
    · obtain hn' | hn' := mem_append.mp hn'
      · obtain ⟨n, hn, rfl⟩ := List.mem_map.mp hn'
        obtain hread | hwrite := hx
        · obtain hread | heq := mem_reads_of_editNode hread
          · have hlt := below_reads hwf hn hread
            omega
          · omega
        · rw [editNode_outputs] at hwrite
          have hlt := hwf.below x (.inr (.inr (.inr ⟨n, hn, .inr hwrite⟩)))
          omega
      · obtain rfl := mem_singleton.mp hn'
        have hcases : (x = v ∨ x = g.next + 1) ∨ x = g.next + 2 := by simpa [Node.reads, reshapeNode] using hx
        omega
  · intro n' hn' hkind hdomain
    rw [hnodes] at hn'
    rw [handled_opset]
    obtain hn' | hn' := mem_append.mp hn'
    · obtain ⟨n, hn, rfl⟩ := List.mem_map.mp hn'
      rw [editNode_kind] at hkind
      rw [editNode_domain] at hdomain
      have hvalid := hwf.reductions n hn hkind hdomain
      cases hedited : isEdited v n with
      | false => rwa [editNode_unedited hedited]
      | true => exact valid_editNode hready hn hedited hdomain hvalid
    · obtain rfl := mem_singleton.mp hn'
      exact absurd rfl (kind_ne_reshape hkind)

theorem ready_handled (hwf : g.WellFormed) (hready : g.Ready v) (hout : v ∈ g.outputs) (h : g.sizes v = some [])
    (hw : g.Ready w) (hwout : w ∈ g.outputs) (hne : w ≠ v) : (handleOutput Z N g v).Ready w := by
  have hnodes := handled_nodes_ready (Z := Z) (N := N) hwf hready hout h
  have hwlt := below_output hwf hwout
  refine ⟨by rw [handled_opset]; exact hw.opset, by rw [handled_inputs]; exact hw.fed, ?_, ?_⟩
  · intro n' hn' hread
    rw [hnodes] at hn'
    obtain hn' | hn' := mem_append.mp hn'
    · obtain ⟨n, hn, rfl⟩ := List.mem_map.mp hn'
      obtain hread | heq := mem_reads_of_editNode hread
      · exact hw.unread n hn hread
      · omega
    · obtain rfl := mem_singleton.mp hn'
      have hcases : w = v ∨ w = g.next + 1 := by simpa [Node.reads, reshapeNode] using hread
      omega
  · intro n' hn' hedited'
    rw [hnodes] at hn'
    obtain hn' | hn' := mem_append.mp hn'
    · obtain ⟨n, hn, rfl⟩ := List.mem_map.mp hn'
      have hsizes : ∀ x, n.inputs.head? = some x → (handleOutput Z N g v).sizes x = g.sizes x := fun x hx =>
        sizes_old (below_reads hwf hn (mem_append_left _ (mem_of_mem_head? hx)))
      cases hedited : isEdited v n with
      | true =>
        obtain ⟨hkeep, hs⟩ := editNode_edited hedited hsizes
        exact ⟨.inr ⟨hkeep, hs⟩, fun hbad => hbad.2.2.2 hs⟩
      | false =>
        rw [editNode_unedited hedited] at hedited' ⊢
        have heditable := hw.editable n hn hedited'
        rw [Graph.Editable, spelledRank_congr hsizes, handled_opset]
        exact heditable
    · obtain rfl := mem_singleton.mp hn'
      exact absurd rfl (kind_ne_reshape (isEdited_iff.mp hedited').2.1)

variable {M : Meaning α} {feed : String → Option (NDArray α)} {env : Env Nat (NDArray α)}

/-- The tensor that the edited graph has at the output has the same element, and what makes it and all other nodes
are solved with it. -/
theorem exists_edited (hwf : g.WellFormed) (hready : g.Ready v) (hout : v ∈ g.outputs) (h : g.sizes v = some [])
    (hrun : g.run M feed = some env) (hranks : g.RanksHold env) :
    ∃ t t' : NDArray α, env v = some t ∧ t.shape = [] ∧ t'.data = t.data ∧
      (v ∉ g.nodes.flatMap Node.outputs → t' = t) ∧
      ∀ s : Env Nat (NDArray α), (∀ u < g.next, u ≠ v → s u = env u) → s v = some t' →
        (∀ n ∈ g.nodes, isEdited v n = true → ∀ r, spelledRank g.sizes n = some r → 18 ≤ g.opset →
          s g.next = some (ints M.toIntegers (allAxes r))) →
        ∀ n ∈ g.nodes, Solves (behaviour M) (editNode g v n) s := by
  obtain ⟨t, ht⟩ := exists_value hwf hready.fed hout hrun
  have hshape : t.shape = [] := length_eq_zero_iff.mp (hranks v t [] (.inl hout) ht h)
  obtain ⟨hsolves, -⟩ := (solves_run hwf).mp hrun
  have hkept : ∀ (t' : NDArray α) (s : Env Nat (NDArray α)), (∀ u < g.next, u ≠ v → s u = env u) → s v = some t' →
      ∀ n ∈ g.nodes, (v ∈ n.outputs → t' = t) → Solves (behaviour M) n s := by
    intro t' s hold hnew n hn hmade
    refine (hsolves n hn).congr ?_ ?_
    · intro u hu
      refine hold u (below_reads hwf hn hu) ?_
      rintro rfl
      exact hready.unread n hn hu
    · intro u hu
      by_cases huv : u = v
      · rw [huv] at hu ⊢
        rw [hnew, hmade hu, ht]
      · exact hold u (below_writes hwf (mem_flatMap.mpr ⟨n, hn, hu⟩)) huv
  by_cases hchanges : ∃ n ∈ g.nodes, isEdited v n = true ∧ editNode g v n ≠ n
  · obtain ⟨n, hn, hedited, hchanged⟩ := hchanges
    have hv := (isEdited_iff.mp hedited).1
    obtain ⟨t', hdata, hreduced⟩ := exists_reduced hready hwf hn hedited hchanged (hsolves n hn) hranks ht hshape
    refine ⟨t, t', ht, hshape, hdata, fun hnot => absurd (mem_flatMap.mpr ⟨n, hn, hv⟩) hnot, ?_⟩
    intro s hold hnew haxes m hm
    by_cases hvm : v ∈ m.outputs
    · obtain rfl := eq_of_mem_writes hwf.single hn hm hv hvm
      exact hreduced s hold hnew fun r hr hopset => haxes n hn hedited r hr hopset
    · have hunedited : isEdited v m = false := by
        rw [Bool.eq_false_iff]
        exact fun hm' => hvm (isEdited_iff.mp hm').1
      rw [editNode_unedited hunedited]
      exact hkept t' s hold hnew m hm fun hmade => absurd hmade hvm
  · refine ⟨t, t, ht, hshape, rfl, fun _ => rfl, ?_⟩
    intro s hold hnew _ m hm
    have hsame : editNode g v m = m := by
      by_contra hne
      cases hedited : isEdited v m with
      | true => exact hchanges ⟨m, hm, hedited, hne⟩
      | false => exact hne (editNode_unedited hedited)
    rw [hsame]
    exact hkept t s hold hnew m hm fun _ => rfl

theorem lookup_of_notMem {l : List (Nat × NDArray α)} {u : Nat} (h : ∀ t, (u, t) ∉ l) : l.lookup u = none := by
  rw [lookup_eq_none_iff]
  rintro ⟨x, t⟩ hp
  rw [bne_iff_ne]
  rintro rfl
  exact h t hp

theorem newAxes_eq {Z : Integers α} (hwf : g.WellFormed) {n : Node} (hn : n ∈ g.nodes) (hedited : isEdited v n = true) {r : Nat}
    (hr : spelledRank g.sizes n = some r) (hopset : 18 ≤ g.opset) : newAxes Z g v = [(g.next, ints Z (allAxes r))] := by
  have hfind : g.nodes.find? (isEdited v) = some n := by
    cases hfind : g.nodes.find? (isEdited v) with
    | none => exact absurd hedited (by simpa using find?_eq_none.mp hfind n hn)
    | some m =>
      have hm := mem_of_find?_eq_some hfind
      have hmedited := find?_some hfind
      rw [eq_of_mem_writes hwf.single hm hn (isEdited_iff.mp hmedited).1 (isEdited_iff.mp hedited).1]
  rw [newAxes, hfind, bind_some, hr]
  exact if_pos hopset

/-- The values after a step: the new constants, the output that is edited and the vector made of it. -/
def stepEnv (Z : Integers α) (g : Graph α) (v : Nat) (t' last : NDArray α) (env : Env Nat (NDArray α)) :
    Env Nat (NDArray α) := fun u =>
  if u = g.next + 2 then some last
  else if u = g.next + 1 then some (ints Z [1])
  else if u = g.next then (newAxes Z g v).lookup g.next
  else if u = v then some t'
  else env u

theorem run_handled (hwf : g.WellFormed) (hready : g.Ready v) (hout : v ∈ g.outputs) (h : g.sizes v = some [])
    (hrun : g.run M feed = some env) (hranks : g.RanksHold env) :
    ∃ env', (handleOutput M.toIntegers N g v).run M feed = some env' ∧
      (handleOutput M.toIntegers N g v).RanksHold env' ∧
      (∃ x, env v = some ⟨[], [x], rfl⟩ ∧ env' (g.next + 2) = some ⟨[1], [x], rfl⟩) ∧
      ∀ u < g.next, u ≠ v → env' u = env u := by
  obtain ⟨t, t', ht, hshape, hdata, hunmade, hsolved⟩ := exists_edited hwf hready hout h hrun hranks
  have hone : t'.data.length = 1 := by rw [hdata, t.length_data, hshape, prod_nil]
  obtain ⟨x, hx, hreshape⟩ := evalReshape_one (M := M) hone
  have hvlt := below_output hwf hout
  have hwf' := wellFormed_handled (Z := M.toIntegers) (N := N) hwf hready hout h
  have hnodes := handled_nodes_ready (Z := M.toIntegers) (N := N) hwf hready hout h
  have hflat := flatMap_handled (Z := M.toIntegers) (N := N) hwf hready hout h
  obtain ⟨-, hstart⟩ := (solves_run hwf).mp hrun
  let env' := stepEnv M.toIntegers g v t' ⟨[1], [x], rfl⟩ env
  have hlast : env' (g.next + 2) = some ⟨[1], [x], rfl⟩ := if_pos rfl
  have hconst : env' (g.next + 1) = some (ints M.toIntegers [1]) := by
    show stepEnv _ _ _ _ _ _ _ = _
    rw [stepEnv, if_neg (by omega), if_pos rfl]
  have haxes : env' g.next = (newAxes M.toIntegers g v).lookup g.next := by
    show stepEnv _ _ _ _ _ _ _ = _
    rw [stepEnv, if_neg (by omega), if_neg (by omega), if_pos rfl]
  have hnew : env' v = some t' := by
    show stepEnv _ _ _ _ _ _ _ = _
    rw [stepEnv, if_neg (by omega), if_neg (by omega), if_neg (by omega), if_pos rfl]
  have hold : ∀ u, u ≠ g.next → u ≠ g.next + 1 → u ≠ g.next + 2 → u ≠ v → env' u = env u := by
    intro u h₀ h₁ h₂ hne
    show stepEnv _ _ _ _ _ _ _ = _
    rw [stepEnv, if_neg h₂, if_neg h₁, if_neg h₀, if_neg hne]
  have hbelow : ∀ u < g.next, u ≠ v → env' u = env u := fun u hu hne =>
    hold u (by omega) (by omega) (by omega) hne
  refine ⟨env', ?_, ?_, ⟨x, ?_, hlast⟩, hbelow⟩
  · rw [solves_run hwf', hflat, hnodes]
    constructor
    · intro n' hn'
      obtain hn' | hn' := mem_append.mp hn'
      · obtain ⟨n, hn, rfl⟩ := List.mem_map.mp hn'
        refine hsolved env' hbelow hnew ?_ n hn
        intro m hm hedited r hr hopset
        rw [haxes, newAxes_eq hwf hm hedited hr hopset]
        simp
      · obtain rfl := mem_singleton.mp hn'
        refine ⟨[⟨[1], [x], rfl⟩], ?_, ?_⟩
        · have hkind : ¬ ((reshapeNode v (g.next + 1) (g.next + 2)).domain.getD "" = "" ∧
              isHandledReduceKind (reshapeNode v (g.next + 1) (g.next + 2)).kind = true) :=
            fun hboth => kind_ne_reshape hboth.2 rfl
          have hins : (reshapeNode v (g.next + 1) (g.next + 2)).inputs.map env' =
              [some t', some (ints M.toIntegers [1])] := by
            show [env' v, env' (g.next + 1)] = _
            rw [hnew, hconst]
          rw [eval_reads, evalNode, if_neg hkind, if_pos ⟨rfl, rfl, rfl, rfl⟩, hins, hreshape]
          rfl
        · show [env' (g.next + 2)] = _
          rw [hlast]
          rfl
    · intro u hu
      rw [mem_append, not_or, mem_singleton] at hu
      have hlookup : (handleOutput M.toIntegers N g v).initializers.lookup u =
          (g.initializers.lookup u).or (((newAxes M.toIntegers g v).lookup u).or
            ([(g.next + 1, ints M.toIntegers [1])].lookup u)) := by
        rw [handled_initializers h, lookup_append, lookup_append, Option.or_assoc]
      have hfresh : g.next ≤ u → u ∉ g.inputs ∧ g.initializers.lookup u = none := by
        intro hge
        refine ⟨fun hin => ?_, lookup_of_notMem fun t hmem => ?_⟩
        · have hlt := hwf.below u (.inl hin)
          omega
        · have hlt := hwf.below u (.inr (.inl ⟨t, hmem⟩))
          omega
      rw [Graph.start, handled_inputs, hlookup]
      by_cases h₁ : u = g.next + 1
      · obtain ⟨hnot, hnone⟩ := hfresh (by omega)
        have haxesNone : (newAxes M.toIntegers g v).lookup u = none :=
          lookup_of_notMem fun t hmem => by
            have heq := mem_newAxes hmem
            omega
        rw [if_neg hnot, hnone, haxesNone, h₁, hconst]
        simp
      · have hlastNone : [(g.next + 1, ints M.toIntegers [1])].lookup u = none :=
          lookup_of_notMem fun t hmem => h₁ (congrArg Prod.fst (mem_singleton.mp hmem))
        by_cases h₀ : u = g.next
        · obtain ⟨hnot, hnone⟩ := hfresh (by omega)
          rw [if_neg hnot, hnone, hlastNone, h₀, haxes, none_or, or_none]
        · have haxesNone : (newAxes M.toIntegers g v).lookup u = none :=
            lookup_of_notMem fun t hmem => h₀ (mem_newAxes hmem)
          rw [hlastNone, haxesNone, none_or, or_none]
          by_cases huv : u = v
          · have hsame := hstart u hu.1
            rw [huv] at hu hsame ⊢
            rw [hnew, hunmade hu.1, ← ht, hsame, Graph.start, if_neg hready.fed, if_neg hready.fed]
          · rw [hold u h₀ h₁ hu.2 huv, hstart u hu.1, Graph.start]
            by_cases hin : u ∈ g.inputs
            · rw [if_pos hin, if_pos hin, name_old (hwf.below u (.inl hin)) huv]
            · rw [if_neg hin, if_neg hin]
  · intro u s ds hrole hval hds
    have hcases : u = g.next + 2 ∨ u < g.next ∧ u ≠ v ∧
        (u ∈ g.outputs ∨ ∃ n ∈ g.nodes, isHandledReduceKind n.kind ∧ n.inputs.head? = some u) := by
      obtain hu | ⟨n', hn', hkind, hhead⟩ := hrole
      · rw [handled_outputs h] at hu
        obtain ⟨o, ho, rfl⟩ := List.mem_map.mp hu
        by_cases hov : o = v
        · exact .inl (if_pos hov)
        · have hsame : redirect v (g.next + 2) o = o := if_neg hov
          rw [hsame]
          exact .inr ⟨below_output hwf ho, hov, .inl ho⟩
      · rw [hnodes] at hn'
        obtain hn' | hn' := mem_append.mp hn'
        · obtain ⟨n, hn, rfl⟩ := List.mem_map.mp hn'
          rw [editNode_kind] at hkind
          have hhead' : n.inputs.head? = some u := by
            obtain heq | ⟨hedited, heq⟩ := editNode_inputs (g := g) (v := v) (n := n)
            · rwa [heq] at hhead
            · rw [heq] at hhead
              cases hinputs : n.inputs with
              | nil => exact absurd hinputs (isEdited_iff.mp hedited).2.2
              | cons a rest =>
                rw [hinputs] at hhead
                exact hhead
          have hread : u ∈ n.reads := mem_append_left _ (mem_of_mem_head? hhead')
          refine .inr ⟨below_reads hwf hn hread, ?_, .inr ⟨n, hn, hkind, hhead'⟩⟩
          rintro rfl
          exact hready.unread n hn hread
        · obtain rfl := mem_singleton.mp hn'
          exact absurd rfl (kind_ne_reshape hkind)
    obtain rfl | ⟨hlt, hne, hrole'⟩ := hcases
    · rw [hlast] at hval
      rw [handled_sizes h, Function.update_self] at hds
      rw [← Option.some.inj hval, ← Option.some.inj hds]
      rfl
    · rw [hbelow u hlt hne] at hval
      rw [sizes_old hlt] at hds
      exact hranks u s ds hrole' hval hds
  · rw [ht]
    obtain ⟨shape, data, hlen⟩ := t
    subst hshape
    obtain rfl : data = [x] := hdata.symm.trans hx
    rfl

end Onnxsim.Passes.ScalarOutputs
