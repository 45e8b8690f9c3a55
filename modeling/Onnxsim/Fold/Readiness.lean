import Onnxsim.Fold.Preservation
import Onnxsim.Fold.Resolution

namespace Onnxsim.Fold.Evaluability

open List Proto.Graphs Proto.Models
open Fold.Partition RunOps FoldConstant Semantics
open Fold.Order RunOpsSound Partitioned Resolution
open RunOpsExact Closure

/-- A node can be evaluated, and so can the producers of everything it reads. -/
inductive Evaluable (ev : Node → Prop) (m : Model) : Node → Prop
  | intro {n : Node} (hev : ev n)
      (hinput : ∀ y ∈ n.input, y ≠ "" → ∀ a ∈ m.node, y ∈ a.output → Evaluable ev m a) :
      Evaluable ev m n

/-- The names a node reads itself or through the deferred nodes that are inlined for it. -/
inductive Needs (m : Model) (p : ConstantNodePartition) : Node → String → Prop
  | input {n : Node} {y : String} (hy : y ∈ n.input) (hne : y ≠ "") : Needs m p n y
  | deferred {n d : Node} {y z : String} (hy : y ∈ n.input) (hne : y ≠ "") (hd : d ∈ m.node)
      (hyd : y ∈ d.output) (hdef : y ∈ p.deferredOutputs) (h : Needs m p d z) : Needs m p n z

/-- What the folder finds under a name after it has folded `ran`. The impure results for which `keeps`
fails have been forgotten. -/
structure Lookups (m : Model) (p : ConstantNodePartition) (keeps : String → Prop)
    (constants : Producers) (initializer : List (String × Tensor)) (ran : List Ref) : Prop where
  given : ∀ y t, y ≠ "" → initializer.lookup y = some t →
    y ∈ m.initializerNames ∨ y ∈ outputNames ran ∧ y ∉ p.impureOutputs
  initializer : ∀ y, y ≠ "" → y ∈ m.initializerNames ∨ y ∈ outputNames ran ∧ y ∉ p.impureOutputs →
    ∃ t, initializer.lookup y = some t
  constant : ∀ y r, y ≠ "" → constants.lookup y = some r →
    isConstantOp r.2 = true ∧ r.2 ∈ m.node ∧ y ∈ r.2.output ∨
    y ∈ outputNames ran ∧ y ∈ p.impureOutputs ∧ keeps y ∧ ∃ t, r.2 = makeConstantNode y t
  kept : ∀ y, y ≠ "" → y ∈ outputNames ran → y ∈ p.impureOutputs → keeps y →
    ∃ r, constants.lookup y = some r
  model : ∀ n ∈ m.node, isConstantOp n = true → ∀ y ∈ n.output, y ≠ "" → y ∉ outputNames ran →
    ∃ r, constants.lookup y = some r

variable {ev : Node → Prop} {m : Model} {p : ConstantNodePartition} (hv : Valid m) (hp : ClosureInv m m.node p)
  {y : String} {n : Node}

include hv in
theorem not_initializer (hn : n ∈ m.node) (hy : y ∈ n.output) (hne : y ≠ "") : y ∉ m.initializerNames := by
  intro hi
  exact (nodup_append.mp hv.single).2.2 y (mem_append_right _ hi) y
    (mem_flatMap.mpr ⟨n, hn, mem_nonempty.mpr ⟨hy, hne⟩⟩) rfl

include hv in
theorem same_producer {a c : Node} (ha : a ∈ m.node) (hc : c ∈ m.node) (hya : y ∈ a.output) (hyc : y ∈ c.output)
    (hne : y ≠ "") : a = c :=
  eq_of_common_output hv ha hc (mem_nonempty.mpr ⟨hya, hne⟩) (mem_nonempty.mpr ⟨hyc, hne⟩)

include hv hp in
theorem known_of_name (hy : y ∈ p.constNames) (hn : n ∈ m.node) (hyn : y ∈ n.output) (hne : y ≠ "") : Known p n := by
  rcases hp.names y hy with h0 | hi | ⟨a, ha, hya, hk⟩
  · exact absurd h0 hne
  · exact absurd hi (not_initializer hv hn hyn hne)
  · exact same_producer hv ha hn hya hyn hne ▸ hk

include hv hp in
theorem Known.inputs (h : Known p n) (hn : n ∈ m.node) (hy : y ∈ n.output) (hne : y ≠ "") :
    ∀ z ∈ n.input, z ∈ p.constNames := by
  intro z hz
  rcases h with hc | hconst | ⟨-, hd⟩
  · rw [(hv.constants n hn hc).1] at hz
    cases hz
  · exact hp.constInput n hconst z hz
  · obtain ⟨a, ha, hya, -, -, hin⟩ := hp.deferred y (hd y hy)
    exact hin z (same_producer hv ha hn hya hy hne ▸ hz)

include hv hp in
theorem not_impure_of_constant (hn : n ∈ m.node) (hc : isConstantOp n = true) (hy : y ∈ n.output) (hne : y ≠ "") :
    y ∉ p.impureOutputs := by
  intro hi
  obtain ⟨a, ha, hya, hin⟩ := hp.impure y hi
  have han := same_producer hv (hp.sublist.subset ha) hn hya hy hne
  exact hin (han ▸ (hv.constants n hn hc).1)

theorem deferred_lookup {r : Ref} (h : (deferredProducers m p).lookup y = some r) :
    (∃ i, r.1 = .model i ∧ m.node[i]? = some r.2) ∧ y ∈ r.2.output ∧ y ∈ p.deferredOutputs := by
  have hmem : (y, r) ∈ deferredProducers m p := mem_of_lookup h
  obtain ⟨hr, hy, hd⟩ := mem_producersOf hmem
  exact ⟨mem_keyed.mp hr, hy, by simpa using hd⟩

theorem exists_lookup {α : Type} {l : List (String × α)} {a : α} (h : (y, a) ∈ l) : ∃ b, l.lookup y = some b :=
  Option.isSome_iff_exists.mp (lookup_isSome_iff.mpr ⟨_, h, beq_self_eq_true y⟩)

theorem mem_producersOf_keyed (keep : Node → String → Bool) (hn : n ∈ m.node) (hy : y ∈ n.output)
    (hkeep : keep n y = true) :
    ∃ r, (producersOf (keyed .model m.node) keep).lookup y = some r := by
  obtain ⟨i, hi⟩ := getElem?_of_mem hn
  refine exists_lookup (a := (Key.model i, n)) (mem_flatMap.mpr ⟨(.model i, n), ?_, ?_⟩)
  · exact mem_keyed.mpr ⟨i, rfl, hi⟩
  · exact List.mem_map.mpr ⟨y, mem_filter.mpr ⟨hy, hkeep⟩, rfl⟩

variable {keeps : String → Prop} {constants : Producers} {initializer : List (String × Tensor)}
  {ran ops : List Ref}

theorem mem_outputs {l : List Ref} (h : y ∈ outputNames l) : ∃ r ∈ l, y ∈ r.2.output :=
  mem_flatMap.mp h

include hv hp in
theorem evaluable_of_ready (hl : Lookups m p keeps constants initializer ran)
    (hran : ∀ r ∈ ran, r.2 ∈ m.node ∧ Evaluable ev m r.2) (hops : ∀ r ∈ ops, r.2 ∈ m.node)
    (hready : ∀ r ∈ ops, Ready ev (scopeOf (deferredProducers m p) constants initializer ops) r.2) {i : Nat}
    (hi : m.node[i]? = some n) (hin : ∀ y ∈ n.input, y ∈ p.constNames)
    (h : Ready ev (scopeOf (deferredProducers m p) constants initializer ops) n) :
    Evaluable ev m n := by
  induction i using Nat.strong_induction_on generalizing n with
  | _ i ih =>
    obtain ⟨hev, hnode, hinit⟩ := h
    refine .intro hev fun y hy hne a ha hya => ?_
    obtain ⟨j, hj⟩ := getElem?_of_mem ha
    have hlt : j < i := index_lt_of_reads hv hi hj
      (input_subset_reads n y (mem_nonempty.mpr ⟨hy, hne⟩)) (mem_nonempty.mpr ⟨hya, hne⟩)
    have hknown : ∀ z ∈ a.input, z ∈ p.constNames :=
      Known.inputs hv hp (known_of_name hv hp (hin y hy) ha hya hne) ha hya hne
    have hrecord : y ∈ outputNames ran → Evaluable ev m a := by
      intro hmem
      obtain ⟨r, hr, hyr⟩ := mem_outputs hmem
      exact same_producer hv (hran r hr).1 ha hyr hya hne ▸ (hran r hr).2
    by_cases hint : y ∈ outputNames ops
    · obtain ⟨r, hr, hyr⟩ := mem_outputs hint
      obtain rfl := same_producer hv (hops r hr) ha hyr hya hne
      exact ih j hlt hj hknown (hready r hr)
    have hlook : Looked (scopeOf (deferredProducers m p) constants initializer ops) y := ⟨hne, hint⟩
    cases hprod : producer (scopeOf (deferredProducers m p) constants initializer ops) y with
    | some r =>
      have hr := hnode y hy hlook r hprod
      cases hd : (deferredProducers m p).lookup y with
      | some d =>
        have hdr : d = r := by simpa [producer, scopeOf, hd] using hprod
        subst hdr
        obtain ⟨⟨k, -, hk⟩, hyd, -⟩ := deferred_lookup hd
        obtain rfl := same_producer hv (mem_of_getElem? hk) ha hyd hya hne
        exact ih j hlt hj hknown hr
      | none =>
        have hc : constants.lookup y = some r := by simpa [producer, scopeOf, hd] using hprod
        rcases hl.constant y r hne hc with ⟨-, hrm, hyr⟩ | ⟨hmem, -⟩
        · obtain rfl := same_producer hv hrm ha hyr hya hne
          exact ih j hlt hj hknown hr
        · exact hrecord hmem
    | none =>
      obtain ⟨t, ht⟩ := hinit y hy hlook hprod
      rcases hl.given y t hne ht with hgiven | ⟨hmem, -⟩
      · exact absurd hgiven (not_initializer hv ha hya hne)
      · exact hrecord hmem

end Onnxsim.Fold.Evaluability

namespace Onnxsim.Fold.Readiness

open List Proto.Graphs Proto.Models
open Fold.Partition RunOps FoldConstant Semantics
open Fold.Order RunOpsSound Partitioned Resolution
open RunOpsExact Closure Evaluability FoldRuns

/-- All the nodes to be folded that stand before `n` are among `upto`. -/
def Early (m : Model) (p : ConstantNodePartition) (upto : List Ref) (n : Node) : Prop :=
  ∃ i : Nat, m.node[i]? = some n ∧ ∀ a ∈ p.constNodes, nonempty a.output ≠ [] → ∀ j : Nat,
    m.node[j]? = some a → j < i → ∃ r ∈ upto, r.2 = a

variable {y : String} {r : Ref} {ev : Node → Prop} {m : Model} {p : ConstantNodePartition} (hv : Valid m)
  (hp : ClosureInv m m.node p) {n : Node} {upto : List Ref}

theorem Early.of_reads (hv : Valid m) {d : Node} (h : Early m p upto n) (hy : y ∈ n.input) (hne : y ≠ "")
    (hd : d ∈ m.node) (hyd : y ∈ d.output) : Early m p upto d := by
  obtain ⟨i, hi, hall⟩ := h
  obtain ⟨k, hk⟩ := getElem?_of_mem hd
  have hlt : k < i := index_lt_of_reads hv hi hk (input_subset_reads n y (mem_nonempty.mpr ⟨hy, hne⟩))
    (mem_nonempty.mpr ⟨hyd, hne⟩)
  exact ⟨k, hk, fun a ha hout j hj hjk => hall a ha hout j hj (hjk.trans hlt)⟩

theorem early_of_slice (hv : Valid m) (hsub : p.constNodes.Sublist m.node) (hpre : upto <+: keyed .const p.constNodes)
    (hr : r ∈ upto) : Early m p upto r.2 := by
  obtain ⟨rest, hrest⟩ := hpre
  have hnodes : upto.map Prod.snd ++ rest.map Prod.snd = p.constNodes := by
    rw [← map_append, hrest, keyed_snd]
  rw [← hnodes] at hsub
  obtain ⟨l₁, l₂, hm, h₁, h₂⟩ := append_sublist_iff.mp hsub
  obtain ⟨i, hi⟩ := getElem?_of_mem (h₁.subset (List.mem_map.mpr ⟨r, hr, rfl⟩))
  have hlen : i < l₁.length := (List.getElem?_eq_some_iff.mp hi).1
  refine ⟨i, by rw [hm, getElem?_append_left hlen, hi], fun a ha hout j hj hlt => ?_⟩
  rw [← hnodes, mem_append] at ha
  rcases ha with ha | ha
  · obtain ⟨b, hb, rfl⟩ := List.mem_map.mp ha
    exact ⟨b, hb, rfl⟩
  · obtain ⟨k, hk⟩ := getElem?_of_mem (h₂.subset ha)
    have hk' : m.node[l₁.length + k]? = some a := by
      rw [hm, getElem?_append_right (by omega)]
      simpa using hk
    obtain ⟨y, hy⟩ := exists_mem_of_ne_nil _ hout
    have hjk := producer_unique hv hj hk' hy hy
    omega

variable {keeps : String → Prop} {constants : Producers} {initializer : List (String × Tensor)}
  {ran seen ops : List Ref}

include hv hp in
/-- Whatever can be evaluated is ready once the nodes before it have had their turn, unless it needs a
forgotten result. -/
theorem ready_of_evaluable (hconst : ∀ name t, ev (makeConstantNode name t))
    (hl : Lookups m p keeps constants initializer ran) (hran : ∀ r ∈ seen, Evaluable ev m r.2 → r ∈ ran)
    (h : Evaluable ev m n) (hearly : Early m p (seen ++ ops) n) (hin : ∀ y ∈ n.input, y ∈ p.constNames)
    (hneeds : ∀ y, Needs m p n y → y ∈ p.impureOutputs → ¬ keeps y → y ∈ outputNames ops) :
    Ready ev (scopeOf (deferredProducers m p) constants initializer ops) n := by
  induction h with
  | @intro n hev hinput ih =>
    refine .intro hev (fun y hy hlook r hprod => ?_) (fun y hy hlook hprod => ?_)
    · obtain ⟨hne, hint⟩ := hlook
      cases hd : (deferredProducers m p).lookup y with
      | some d =>
        have hdr : d = r := by simpa [producer, scopeOf, hd] using hprod
        subst hdr
        obtain ⟨⟨k, -, hk⟩, hyd, hdef⟩ := deferred_lookup hd
        have hmem := mem_of_getElem? hk
        refine ih y hy hne d.2 hmem hyd (hearly.of_reads hv hy hne hmem hyd) ?_ ?_
        · exact Known.inputs hv hp (known_of_name hv hp (hin y hy) hmem hyd hne) hmem hyd hne
        · exact fun z hz => hneeds z (.deferred hy hne hmem hyd hdef hz)
      | none =>
        have hc : constants.lookup y = some r := by simpa [producer, scopeOf, hd] using hprod
        rcases hl.constant y r hne hc with ⟨hop, hrm, hyr⟩ | ⟨-, -, -, t, hr⟩
        · have hinputs : r.2.input = [] := (hv.constants r.2 hrm hop).1
          obtain ⟨hevr, -⟩ := hinput y hy hne r.2 hrm hyr
          exact .intro hevr (by simp [hinputs]) (by simp [hinputs])
        · rw [hr]
          exact .intro (hconst y t) (by simp [makeConstantNode, Node.input])
            (by simp [makeConstantNode, Node.input])
    · obtain ⟨hne, hint⟩ := hlook
      obtain ⟨hd, hc⟩ := Option.or_eq_none_iff.mp hprod
      have hd : (deferredProducers m p).lookup y = none := hd
      have hc : constants.lookup y = none := hc
      rcases hp.names y (hin y hy) with h0 | hi | ⟨a, ha, hya, hknown⟩
      · exact absurd h0 hne
      · exact hl.initializer y hne (.inl hi)
      · rcases hknown with hop | hmem | ⟨-, hdef⟩
        · by_cases hran' : y ∈ outputNames ran
          · exact hl.initializer y hne (.inr ⟨hran', not_impure_of_constant hv hp ha hop hya hne⟩)
          · obtain ⟨r, hr⟩ := hl.model a ha hop y hya hne hran'
            rw [hc] at hr
            cases hr
        · obtain ⟨i, hi, hall⟩ := hearly
          obtain ⟨j, hj⟩ := getElem?_of_mem ha
          have hlt : j < i := index_lt_of_reads hv hi hj
            (input_subset_reads n y (mem_nonempty.mpr ⟨hy, hne⟩)) (mem_nonempty.mpr ⟨hya, hne⟩)
          have hout : nonempty a.output ≠ [] := ne_nil_of_mem (mem_nonempty.mpr ⟨hya, hne⟩)
          obtain ⟨r, hr, rfl⟩ := hall a hmem hout j hj hlt
          have hseen : r ∈ seen := by
            refine (mem_append.mp hr).resolve_right fun hops => hint ?_
            exact mem_flatMap.mpr ⟨r, hops, hya⟩
          have hfolded : y ∈ outputNames ran :=
            mem_flatMap.mpr ⟨r, hran r hseen (hinput y hy hne r.2 ha hya), hya⟩
          by_cases himp : y ∈ p.impureOutputs
          · by_cases hkeep : keeps y
            · obtain ⟨c, hc'⟩ := hl.kept y hne hfolded himp hkeep
              rw [hc] at hc'
              cases hc'
            · exact absurd (hneeds y (.input hy hne) himp hkeep) hint
          · exact hl.initializer y hne (.inr ⟨hfolded, himp⟩)
        · obtain ⟨r, hr⟩ := mem_producersOf_keyed (fun _ o => p.deferredOutputs.contains o) ha hya
            (by simpa using hdef y hya)
          exact absurd (hd.symm.trans hr) (by simp)

include hv hp in
theorem not_ready_of_forgotten (hl : Lookups m p keeps constants initializer ran)
    (hops : ∀ r ∈ ops, r.2 ∈ p.constNodes) (hy : Needs m p n y) (himp : y ∈ p.impureOutputs) (hkeep : ¬ keeps y)
    (hint : y ∉ outputNames ops) :
    ¬ Ready ev (scopeOf (deferredProducers m p) constants initializer ops) n := by
  induction hy with
  | @input n y hy hne =>
    rintro ⟨-, -, hinit⟩
    obtain ⟨a, ha, hya, hin⟩ := hp.impure y himp
    have ham := hp.sublist.subset ha
    have hnot : producer (scopeOf (deferredProducers m p) constants initializer ops) y = none := by
      refine Option.or_eq_none_iff.mpr ⟨?_, ?_⟩
      · cases hd : (deferredProducers m p).lookup y with
        | none => exact hd
        | some d =>
          exact absurd (deferred_lookup hd).2.2 (hp.disjoint a ha y (mem_nonempty.mpr ⟨hya, hne⟩))
      · cases hc : constants.lookup y with
        | none => exact hc
        | some r =>
          rcases hl.constant y r hne hc with ⟨hop, hrm, hyr⟩ | ⟨-, -, hk, -⟩
          · exact absurd himp (not_impure_of_constant hv hp hrm hop hyr hne)
          · exact absurd hk hkeep
    obtain ⟨t, ht⟩ := hinit y hy ⟨hne, hint⟩ hnot
    rcases hl.given y t hne ht with hgiven | ⟨-, hpure⟩
    · exact not_initializer hv ham hya hne hgiven
    · exact hpure himp
  | @deferred n d y z hy hne hd hyd hdef hz ih =>
    rintro ⟨-, hnode, -⟩
    have hnotint : y ∉ outputNames ops := by
      intro hmem
      obtain ⟨r, hr, hyr⟩ := mem_outputs hmem
      exact hp.disjoint r.2 (hops r hr) y (mem_nonempty.mpr ⟨hyr, hne⟩) hdef
    obtain ⟨r, hr⟩ := mem_producersOf_keyed (fun _ o => p.deferredOutputs.contains o) hd hyd
      (by simpa using hdef)
    have hlookup : (deferredProducers m p).lookup y = some r := hr
    obtain ⟨⟨k, -, hk⟩, hyr, -⟩ := deferred_lookup hlookup
    have hrd : r.2 = d := same_producer hv (mem_of_getElem? hk) hd hyr hyd hne
    have hprod : producer (scopeOf (deferredProducers m p) constants initializer ops) y = some r := by
      simp [producer, scopeOf, hlookup]
    exact ih himp hkeep hint (hrd ▸ hnode y hy ⟨hne, hnotint⟩ r hprod)

def standsBefore (i : Nat) (e : String × Ref) : Bool :=
  match e.2.1 with
  | .model j => j < i
  | _ => false

/-- How many entries of the deferred producers stand before a position. -/
def depth (m : Model) (p : ConstantNodePartition) (i : Nat) : Nat :=
  (deferredProducers m p).countP (standsBefore i)

theorem countP_lt_of_mem {α : Type} {f g : α → Bool} {l : List α} (hfg : ∀ a, f a = true → g a = true)
    {a : α} (ha : a ∈ l) (hf : f a = false) (hg : g a = true) : l.countP f < l.countP g := by
  obtain ⟨l₁, l₂, rfl⟩ := append_of_mem ha
  have hle (m : List α) : m.countP f ≤ m.countP g := countP_mono_left fun b _ => hfg b
  have h₁ := hle l₁
  have h₂ := hle l₂
  rw [countP_append, countP_append, countP_cons_of_neg (by simp [hf]), countP_cons_of_pos hg]
  omega

theorem depth_lt {i j : Nat} (h : (y, r) ∈ deferredProducers m p) (hj : r.1 = .model j) (hlt : j < i) :
    depth m p j < depth m p i := by
  refine countP_lt_of_mem (fun e he => ?_) h ?_ ?_
  · rw [standsBefore] at he ⊢
    split at he
    · next k hk =>
      simp only [decide_eq_true_eq] at he ⊢
      omega
    · cases he
  · simp [standsBefore, hj]
  · simpa [standsBefore, hj] using hlt

def Within (m : Model) (p : ConstantNodePartition) (k : Nat) (n : Node) : Prop :=
  n.input = [] ∨ ∃ i : Nat, m.node[i]? = some n ∧ depth m p i < k

theorem shape_scopeOf (hv : Valid m) (hsub : p.constNodes.Sublist m.node) {fresh : List Node}
    {constants : Producers}
    (hconst : ∀ e ∈ constants, pointee m p fresh e.2.1 = some e.2.2 ∧ e.2.2.input = [])
    (initializer : List (String × Tensor)) {ops : List Ref}
    (hops : ∀ r ∈ ops, r ∈ keyed .const p.constNodes) :
    Shape (Within m p) (pointee m p fresh) (scopeOf (deferredProducers m p) constants initializer ops)
      ops := by
  have hsplit : ∀ y r, producer (scopeOf (deferredProducers m p) constants initializer ops) y = some r →
      (deferredProducers m p).lookup y = some r ∨ constants.lookup y = some r := by
    intro y r hr
    cases hd : (deferredProducers m p).lookup y with
    | some d => exact .inl (by simpa [producer, scopeOf, hd] using hr)
    | none => exact .inr (by simpa [producer, scopeOf, hd] using hr)
  refine ⟨fun y r hr => ?_, fun k n hn y hy hlook r hr => ?_, fun r hr => ?_⟩
  · rcases hsplit y r hr with hd | hc
    · obtain ⟨⟨i, hi, hn⟩, -⟩ := deferred_lookup hd
      rw [hi]
      exact hn
    · exact (hconst (y, r) (mem_of_lookup hc)).1
  · rcases hn with hnil | ⟨i, hi, hk⟩
    · rw [hnil] at hy
      cases hy
    · refine ⟨depth m p i, hk, ?_⟩
      rcases hsplit y r hr with hd | hc
      · obtain ⟨⟨j, hj, hn⟩, hyr, -⟩ := deferred_lookup hd
        have hlt : j < i := index_lt_of_reads hv hi hn
          (input_subset_reads n y (mem_nonempty.mpr ⟨hy, hlook.1⟩)) (mem_nonempty.mpr ⟨hyr, hlook.1⟩)
        exact .inr ⟨j, hn, depth_lt (mem_of_lookup hd) hj hlt⟩
      · exact .inl (hconst (y, r) (mem_of_lookup hc)).2
  · obtain ⟨k, hk, hn⟩ := mem_keyed.mp (hops r hr)
    obtain ⟨i, hi⟩ := getElem?_of_mem (hsub.subset (mem_of_getElem? hn))
    have hdepth : depth m p i ≤ (deferredProducers m p).length := countP_le_length
    refine ⟨by rw [hk]; exact hn, depth m p i + 1, ?_, .inr ⟨i, hi, Nat.lt_succ_self _⟩⟩
    simp only [includeFuel, scopeOf]
    omega

end Onnxsim.Fold.Readiness
