import Onnxsim.ShapeCost.Lifetimes

namespace Onnxsim.ShapeCost.ArenaSound

open List Option Lib.Dicts Overflow.Arrays ArenaPlans
  Lifetimes ShapeRanges.Dims

section

variable {b : Bounds} {kinds : String → TensorKind} {d : Dict String TensorBound} {g : Graph} {n : String} {t : TensorBound}

theorem get?_addTensor (kind : TensorKind) (m : String) (hn : n ≠ "") :
    (addTensor b kind d m).get? n = (d.get? n).or (if n = m then some ⟨kind, (b n).1, (b n).2⟩ else none) := by
  rw [addTensor]
  by_cases heq : n = m
  · subst heq
    rw [if_pos rfl]
    cases hget : d.get? n with
    | none => rw [if_neg (by simp [hn]), Dict.get?_set, if_pos rfl, none_or]
    | some t => rw [if_pos (by simp), hget, some_or]
  · rw [if_neg heq, or_none]
    split
    · rfl
    · rw [Dict.get?_set, if_neg heq]

theorem get?_addAll (ms : List String) (hn : n ≠ "") : (ms.foldl (fun d m => addTensor b (kinds m) d m) d).get? n =
    (d.get? n).or (if n ∈ ms then some ⟨kinds n, (b n).1, (b n).2⟩ else none) := by
  induction ms generalizing d with
  | nil => simp
  | cons m ms ih =>
    rw [foldl_cons, ih, get?_addTensor _ _ hn, Option.or_assoc]
    congr 1
    by_cases heq : n = m
    · subst heq
      rw [if_pos rfl, some_or, if_pos mem_cons_self]
    · rw [if_neg heq, none_or]
      simp [heq]

def outputKind (g : Graph) (o : String) : TensorKind := if o ∈ g.outputs then .output else .activation

theorem get?_tensorsOf (hn : n ≠ "") : (tensorsOf g b).get? n =
    ((((if n ∈ g.initializers then some ⟨.weight, (b n).1, (b n).2⟩ else none).or
      (if n ∈ g.inNames then some ⟨.input, (b n).1, (b n).2⟩ else none)).or
        (if n ∈ g.nodes.flatMap Node.outputs then some ⟨outputKind g n, (b n).1, (b n).2⟩ else none)).or
          (if n ∈ g.outputs then some ⟨.output, (b n).1, (b n).2⟩ else none)) := by
  have hmade : ∀ d, g.nodes.foldl (addOutputs b g.outputs) d =
      (g.nodes.flatMap Node.outputs).foldl (fun d o => addTensor b (outputKind g o) d o) d := by
    intro d
    rw [foldl_flatMap]
    rfl
  simp only [tensorsOf, hmade]
  rw [get?_addAll _ hn, get?_addAll _ hn, get?_addAll _ hn, get?_addAll _ hn, Dict.get?_empty, none_or]

theorem get?_tensorsOf_empty (b : Bounds) (g : Graph) : (tensorsOf g b).get? "" = none := by
  have hkeep : ∀ (kinds : String → TensorKind) (ms : List String) (d : Dict String TensorBound),
      (ms.foldl (fun d m => addTensor b (kinds m) d m) d).get? "" = d.get? "" := by
    intro kinds ms
    induction ms with
    | nil => exact fun _ => rfl
    | cons m ms ih =>
      intro d
      rw [foldl_cons, ih, addTensor]
      split
      · rfl
      · next hm =>
        rw [Dict.get?_set, if_neg]
        rintro rfl
        exact hm (.inl rfl)
  have hmade : ∀ d, (g.nodes.foldl (addOutputs b g.outputs) d).get? "" = d.get? "" := by
    intro d
    have hflat : g.nodes.foldl (addOutputs b g.outputs) d =
        (g.nodes.flatMap Node.outputs).foldl (fun d o => addTensor b (outputKind g o) d o) d := by
      rw [foldl_flatMap]
      rfl
    rw [hflat, hkeep]
  simp only [tensorsOf]
  rw [hkeep, hmade, hkeep, hkeep, Dict.get?_empty]

def Active (g : Graph) (n : String) : Prop := n ∈ g.inNames ∨ ∃ (i : Nat) (m : Node), g.nodes[i]? = some m ∧ n ∈ m.outputs ∧ n ≠ ""

theorem active_iff (hssa : g.Ssa) : (∃ t, (n, t) ∈ activations (tensorsOf g b)) ↔ Active g n := by
  have hmem : ∀ t, (n, t) ∈ activations (tensorsOf g b) ↔ (tensorsOf g b).get? n = some t ∧ t.kind ≠ .weight := by
    intro t
    rw [activations, mem_filter, Dict.get?_eq_some_iff]
    simp
  simp only [hmem]
  by_cases hn : n = ""
  · subst hn
    rw [get?_tensorsOf_empty]
    constructor
    · rintro ⟨t, ht, -⟩
      cases ht
    · rintro (hin | ⟨i, m, -, -, hne⟩)
      · exact absurd (mem_filter.mp hin).1 hssa.named.1
      · exact absurd rfl hne
  · have hmade : n ∈ g.nodes.flatMap Node.outputs ↔
        ∃ (i : Nat) (m : Node), g.nodes[i]? = some m ∧ n ∈ m.outputs ∧ n ≠ "" := by
      rw [mem_flatMap]
      constructor
      · rintro ⟨m, hm, hout⟩
        obtain ⟨i, hi⟩ := mem_iff_getElem?.mp hm
        exact ⟨i, m, hi, hout, hn⟩
      · rintro ⟨i, m, hi, hout, -⟩
        exact ⟨m, mem_of_getElem? hi, hout⟩
    rw [get?_tensorsOf hn]
    by_cases hinit : n ∈ g.initializers
    · rw [if_pos hinit]
      simp only [some_or]
      constructor
      · rintro ⟨t, ht, hkind⟩
        obtain rfl := Option.some.inj ht
        exact absurd rfl hkind
      · rintro (hin | ⟨i, m, hi, hout, hne⟩)
        · have hnot := (mem_filter.mp hin).2
          simp [hinit] at hnot
        · exact absurd hinit (hssa.fresh m (mem_of_getElem? hi) n hout hne).2
    · rw [if_neg hinit, none_or]
      by_cases hin : n ∈ g.inNames
      · rw [if_pos hin]
        simp only [some_or]
        exact ⟨fun _ => .inl hin, fun _ => ⟨_, rfl, by simp⟩⟩
      · rw [if_neg hin, none_or]
        by_cases hout : n ∈ g.nodes.flatMap Node.outputs
        · rw [if_pos hout]
          simp only [some_or]
          refine ⟨fun _ => .inr (hmade.mp hout), fun _ => ⟨_, rfl, ?_⟩⟩
          simp only [outputKind]
          split <;> simp
        · rw [if_neg hout, none_or]
          by_cases hlast : n ∈ g.outputs
          · obtain hbad | hbad | ⟨m, hm, hbad⟩ := hssa.outputs n hlast
            · exact absurd hbad hinit
            · exact absurd (mem_filter.mpr ⟨hbad, by simpa using hinit⟩) hin
            · exact absurd (mem_flatMap.mpr ⟨m, hm, hbad⟩) hout
          · rw [if_neg hlast]
            constructor
            · rintro ⟨t, ht, -⟩
              cases ht
            · rintro (hbad | hbad)
              · exact absurd hbad hin
              · exact absurd (hmade.mpr hbad) hout

end

section

variable {g : Graph} {offsets : Offsets} {arena : Int} {tensors : Dict String TensorBound} {a b n : String}
  {inplace : List (String × String)}

theorem bind_eq_ok {α β : Type} {e : Except Failure α} {f : α → Except Failure β} {y : β} (h : e.bind f = .ok y) :
    ∃ x, e = .ok x ∧ f x = .ok y := by
  cases e with
  | error err => cases h
  | ok x => exact ⟨x, rfl, h⟩

/-- A slot that holds the tensor at its largest and lies in the arena. -/
structure Fits (offsets : Offsets) (arena : Int) (n : String) (t : TensorBound) : Prop where
  large : ∃ need, t.bytes.hi = some need ∧ (need : Int) ≤ (offsets.slot n).2
  low : 0 ≤ (offsets.slot n).1
  high : (offsets.slot n).1 + (offsets.slot n).2 ≤ arena

theorem fits_of_checkSlot {t : TensorBound} (h : checkSlot offsets arena n t = .ok ()) : Fits offsets arena n t := by
  rw [checkSlot] at h
  cases hslot : offsets.get? n with
  | none =>
    rw [hslot] at h
    cases h
  | some slot =>
    obtain ⟨off, size⟩ := slot
    rw [hslot] at h
    have heq : offsets.slot n = (off, size) := by rw [Offsets.slot, hslot, getD_some]
    cases hneed : t.bytes.hi with
    | none =>
      rw [hneed] at h
      cases h
    | some need =>
      rw [hneed] at h
      dsimp only at h
      split_ifs at h with hsmall hleaves
      rw [not_or] at hleaves
      refine ⟨⟨need, hneed, ?_⟩, ?_, ?_⟩
      · rw [heq]
        exact not_lt.mp hsmall
      · rw [heq]
        exact not_lt.mp hleaves.1
      · rw [heq]
        exact not_lt.mp hleaves.2

theorem fits_of_checkSlots {l : List (String × TensorBound)} (h : checkSlots offsets arena l = .ok ()) :
    ∀ p ∈ l, Fits offsets arena p.1 p.2 := by
  induction l with
  | nil => simp
  | cons p l ih =>
    obtain ⟨u, hhead, hrest⟩ := bind_eq_ok h
    intro q hq
    obtain rfl | hq' := mem_cons.mp hq
    · exact fits_of_checkSlot hhead
    · exact ih hrest q hq'

theorem not_clash_of_scanFrom {l : List String} (h : scanFrom g offsets inplace a l = .ok ())
    (hsorted : l.Pairwise fun b c => (span g b).1 ≤ (span g c).1) : ∀ b ∈ l, clash g offsets inplace a b = false := by
  induction l with
  | nil => simp
  | cons c l ih =>
    obtain ⟨hhead, htail⟩ := pairwise_cons.mp hsorted
    rw [scanFrom] at h
    intro b hb
    split_ifs at h with hbreak hclash
    · have hlate : (span g a).2 < (span g b).1 := by
        obtain rfl | hb' := mem_cons.mp hb
        · exact hbreak
        · exact hbreak.trans_le (hhead b hb')
      have hnot : ¬ (span g b).1 ≤ (span g a).2 := not_le.mpr hlate
      simp [clash, hnot]
    · obtain rfl | hb' := mem_cons.mp hb
      · exact Bool.eq_false_iff.mpr hclash
      · exact ih h htail b hb'

theorem not_clash_of_scan {l : List String} (h : scan g offsets inplace l = .ok ())
    (hsorted : l.Pairwise fun b c => (span g b).1 ≤ (span g c).1) : l.Pairwise fun a b => clash g offsets inplace a b = false := by
  induction l with
  | nil => exact .nil
  | cons a l ih =>
    obtain ⟨u, hhead, hrest⟩ := bind_eq_ok h
    obtain ⟨-, htail⟩ := pairwise_cons.mp hsorted
    exact pairwise_cons.mpr ⟨not_clash_of_scanFrom hhead htail, ih hrest htail⟩

theorem clash_comm (a b : String) : clash g offsets inplace a b = clash g offsets inplace b a := by
  have hpairs : ((offsets.slot a).1 == (offsets.slot b).1 && (decide ((a, b) ∈ inplace) || decide ((b, a) ∈ inplace))) =
      ((offsets.slot b).1 == (offsets.slot a).1 && (decide ((b, a) ∈ inplace) || decide ((a, b) ∈ inplace))) := by
    rw [Bool.or_comm, Bool.beq_comm]
  simp only [clash]
  rw [hpairs]
  ac_rfl

/-- What an accepted plan keeps apart. -/
structure Accepted (g : Graph) (offsets : Offsets) (arena : Int) (tensors : Dict String TensorBound) : Prop where
  fits : ∀ n t, (n, t) ∈ activations tensors → Fits offsets arena n t
  apart : ∀ a t b u, (a, t) ∈ activations tensors → (b, u) ∈ activations tensors → a ≠ b →
    clash g offsets (inplacePairs g tensors ((activations tensors).map Prod.fst) 0 g.nodes) a b = false

theorem accepted_of_verify (h : verifyPlan g offsets arena tensors = .ok ()) : Accepted g offsets arena tensors := by
  obtain ⟨u, hslots, hscan⟩ := bind_eq_ok h
  refine ⟨fun n t hmem => fits_of_checkSlots hslots (n, t) hmem, ?_⟩
  set names := (activations tensors).map Prod.fst with hnames
  have htotal : Std.Total fun a b => (span g a).1 ≤ (span g b).1 := ⟨fun a b => le_total _ _⟩
  have htrans : IsTrans String fun a b => (span g a).1 ≤ (span g b).1 := ⟨fun a b c => le_trans⟩
  have hpairwise := not_clash_of_scan hscan (pairwise_insertionSort (fun a b => (span g a).1 ≤ (span g b).1) names)
  intro a t b u ha hb hne
  have hin : ∀ n t, (n, t) ∈ activations tensors → n ∈ names.insertionSort fun a b => (span g a).1 ≤ (span g b).1 := by
    intro n t hmem
    rw [mem_insertionSort]
    exact List.mem_map.mpr ⟨(n, t), hmem, rfl⟩
  have hsymm : Std.Symm fun a b =>
      clash g offsets (inplacePairs g tensors names 0 g.nodes) a b = false := ⟨fun x y hxy => by rwa [clash_comm]⟩
  exact hpairwise.forall (hin a t ha) (hin b u hb) hne

theorem exists_of_mem_inplacePairs {names : List String} {i : Nat} {ns : List Node} {x o : String}
    (h : (x, o) ∈ inplacePairs g tensors names i ns) : ∃ (j : Nat) (node : Node), ns[j]? = some node ∧ x ∈ node.inputs ∧
      o ∈ node.outputs ∧ x ≠ "" ∧ o ≠ "" ∧ (lifetimes g).last.get? x = some ((i + j : Nat) : Int) ∧
        aliasAllowed node x o tensors = true := by
  induction ns generalizing i with
  | nil => cases h
  | cons node ns ih =>
    obtain hnode | hrest := mem_append.mp h
    · obtain ⟨y, hy, hpair⟩ := mem_flatMap.mp hnode
      split_ifs at hpair with hlast
      · obtain ⟨o', ho', hsome⟩ := mem_filterMap.mp hpair
        split_ifs at hsome with hout
        · cases hsome
          exact ⟨0, node, rfl, hy, ho', hlast.1, hout.1, hlast.2.1, hout.2.2⟩
      · cases hpair
    · obtain ⟨j, m, hm, hx, ho, hxne, hone, hlast, halias⟩ := ih hrest
      refine ⟨j + 1, m, hm, hx, ho, hxne, hone, ?_, halias⟩
      rw [hlast, show i + 1 + j = i + (j + 1) by omega]

end

variable {g : Graph} {offsets : Offsets} {arena : Int} {b : Bounds} {actual : String → Actual} {x y o : String}

/-- What an in-place pair of the verifier is. -/
structure InPlace (g : Graph) (offsets : Offsets) (actual : String → Actual) (i : Nat) (node : Node) (x o : String) : Prop where
  node_eq : g.nodes[i]? = some node
  input : x ∈ node.inputs
  output : o ∈ node.outputs
  input_ne : x ≠ ""
  output_ne : o ≠ ""
  last : (span g x).2 = (i : Int)
  offset_eq : (offsets.slot x).1 = (offsets.slot o).1
  operand : x ∈ node.operands
  same : ∀ e e', node.opClass.source (actual x).dims (actual o).dims e = some e' → e' = e
  covers : ∀ e < (actual o).dims.prod, node.opClass.source (actual x).dims (actual o).dims e = some e

variable {dims : List Nat} {tensors : Dict String TensorBound}

theorem dims_of_static {s : Shape} (h : List.Forall₂ (fun d k => Dim.contains d k = true) s dims)
    (hstatic : s.all Dim.isExact = true) : dims = s.map Dim.lo := by
  induction h with
  | nil => rfl
  | @cons d k s dims hhead _ ih =>
    rw [all_cons, Bool.and_eq_true] at hstatic
    have hexact : d.hi = some d.lo := by simpa [Dim.isExact] using hstatic.1
    rw [map_cons, ih hstatic.2]
    have hin : d.lo ≤ k ∧ k ≤ d.lo := by simpa [Dim.contains, hexact] using hhead
    rw [Nat.le_antisymm hin.2 hin.1]

theorem dims_eq_of_sameStaticShape (hrange : InRange tensors actual) {t u : TensorBound}
    (ht : (x, t) ∈ activations tensors) (hu : (o, u) ∈ activations tensors)
    (h : sameStaticShape t.shape u.shape = true) :
    (actual x).dims = (actual o).dims := by
  unfold sameStaticShape at h
  split at h
  · next s s' hs hs' =>
    rw [Bool.and_eq_true, Bool.and_eq_true, beq_iff_eq] at h
    rw [dims_of_static ((hrange x t ht).1 s hs) h.1.1, dims_of_static ((hrange o u hu).1 s' hs') h.1.2, h.2]
  · cases h

theorem source_broadcast_self (e : Nat) :
    OpClass.source dims dims e .broadcast = if e < dims.prod then some e else none := by
  rw [OpClass.source]
  by_cases he : e < dims.prod
  · have hlen : e < (indices dims).length := by rwa [length_indices]
    have hmap : ((indices dims).map (offset dims))[e]? = some (some e) := by
      rw [map_offset_indices, getElem?_map, getElem?_range he, map_some]
    rw [getElem?_map, getElem?_eq_getElem hlen, map_some] at hmap
    rw [if_pos he, getElem?_eq_getElem hlen, bind_some, alignIndex_self (getElem_mem hlen)]
    exact Option.some.inj hmap
  · have hlen : (indices dims).length ≤ e := by rw [length_indices]; exact not_lt.mp he
    rw [if_neg he, getElem?_eq_none hlen, bind_none]

/-- Where sharing is allowed the output is computed from the same positions of the operand, at every shape in range. -/
theorem source_of_aliasAllowed {node : Node} (hrange : InRange tensors actual) (hx : x ∈ node.inputs) (hxne : x ≠ "")
    (hxt : ∃ t, (x, t) ∈ activations tensors) (hot : ∃ t, (o, t) ∈ activations tensors)
    (h : aliasAllowed node x o tensors = true) :
    x ∈ node.operands ∧ (∀ e e', node.opClass.source (actual x).dims (actual o).dims e = some e' → e' = e) ∧
      ∀ e < (actual o).dims.prod, node.opClass.source (actual x).dims (actual o).dims e = some e := by
  unfold aliasAllowed at h
  split_ifs at h with hdomain hpositional hbinary
  · have hclass : node.opClass = .positional := by rw [Node.opClass, if_neg hdomain, if_pos hpositional]
    have hfirst : x = node.inputs.headD "" := by
      rw [Bool.and_eq_true, beq_iff_eq] at h
      exact h.1
    rw [Node.operands, hclass]
    refine ⟨?_, fun e e' he => (Option.some.inj he).symm, fun e _ => rfl⟩
    cases hinputs : node.inputs with
    | nil =>
      rw [hinputs] at hfirst
      exact absurd hfirst hxne
    | cons y ys =>
      rw [hinputs] at hfirst
      rw [hfirst]
      exact mem_cons_self
  · have hclass : node.opClass = .broadcast := by rw [Node.opClass, if_neg hdomain, if_neg hpositional, if_pos hbinary]
    have hdims : (actual x).dims = (actual o).dims := by
      obtain ⟨t, ht⟩ := hxt
      obtain ⟨u, hu⟩ := hot
      have hget : ∀ n v, (n, v) ∈ activations tensors → tensors.get? n = some v :=
        fun n v hmem => Dict.get?_eq_some_iff.mpr (mem_filter.mp hmem).1
      rw [hget x t ht, hget o u hu] at h
      exact dims_eq_of_sameStaticShape hrange ht hu h
    rw [Node.operands, hclass, hdims]
    refine ⟨hx, ?_, ?_⟩
    · intro e e' he
      rw [source_broadcast_self] at he
      split_ifs at he
      exact (Option.some.inj he).symm
    · intro e he
      rw [source_broadcast_self, if_pos he]

theorem inPlace_of_shared (hssa : g.Ssa) (haccepted : Accepted g offsets arena (tensorsOf g b))
    (hrange : InRange (tensorsOf g b) actual) (hx : Active g x) (hy : Active g y) (hne : x ≠ y)
    (hxy : (span g x).1 ≤ (span g y).2) (hyx : (span g y).1 ≤ (span g x).2) {j k : Nat} (hj : j < (actual x).bytes)
    (hk : k < (actual y).bytes) (haddress : offsets.address x j = offsets.address y k) :
    ∃ i node, InPlace g offsets actual i node x y ∨ InPlace g offsets actual i node y x := by
  have hxt := (active_iff (b := b) hssa).mpr hx
  have hyt := (active_iff (b := b) hssa).mpr hy
  obtain ⟨t, ht⟩ := hxt
  obtain ⟨u, hu⟩ := hyt
  obtain ⟨need, hneed, hlarge⟩ := (haccepted.fits x t ht).large
  obtain ⟨need', hneed', hlarge'⟩ := (haccepted.fits y u hu).large
  have hsize := (hrange x t ht).2.2 need hneed
  have hsize' := (hrange y u hu).2.2 need' hneed'
  have hclash := haccepted.apart x t y u ht hu hne
  simp only [Offsets.address] at haddress
  have hlow : (offsets.slot x).1 < (offsets.slot y).1 + (offsets.slot y).2 := by omega
  have hhigh : (offsets.slot y).1 < (offsets.slot x).1 + (offsets.slot x).2 := by omega
  simp only [clash, hxy, hyx, hlow, hhigh, decide_true, Bool.true_and, Bool.not_eq_eq_eq_not, Bool.not_false, Bool.and_eq_true,
    beq_iff_eq, Bool.or_eq_true, decide_eq_true_eq] at hclash
  obtain ⟨hoffset, hpair | hpair⟩ := hclash
  · obtain ⟨i, node, hnode, hin, hout, hxne, hyne, hlast, halias⟩ := exists_of_mem_inplacePairs hpair
    rw [Nat.zero_add] at hlast
    obtain ⟨hoperand, hsame, hcovers⟩ := source_of_aliasAllowed hrange hin hxne ⟨t, ht⟩ ⟨u, hu⟩ halias
    exact ⟨i, node, .inl ⟨hnode, hin, hout, hxne, hyne, span_of_last hlast, hoffset, hoperand, hsame, hcovers⟩⟩
  · obtain ⟨i, node, hnode, hin, hout, hyne, hxne, hlast, halias⟩ := exists_of_mem_inplacePairs hpair
    rw [Nat.zero_add] at hlast
    obtain ⟨hoperand, hsame, hcovers⟩ := source_of_aliasAllowed hrange hin hyne ⟨u, hu⟩ ⟨t, ht⟩ halias
    exact ⟨i, node, .inr ⟨hnode, hin, hout, hyne, hxne, span_of_last hlast, hoffset.symm, hoperand, hsame, hcovers⟩⟩

end Onnxsim.ShapeCost.ArenaSound
