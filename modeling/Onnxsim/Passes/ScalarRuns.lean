import Onnxsim.Lib.FreshNames
import Onnxsim.Passes.ScalarValues

namespace Onnxsim.Passes.ScalarOutputs

open List Option Lib Lib.NodeRuns
open Gathers (place)
open Reduce.Axes (reduceWith reduceWith_toggle reducedShape reducedShape_nil)
open Reduce.Fusion (Dimension)

variable {α : Type} {M : Meaning α} {N : Namer α} {g : Graph α} {β : Type} {l : List β} {opset : Int}

theorem forall₂_imp_of_mem {γ : Type} {R S : β → γ → Prop} {l' : List γ} (h : List.Forall₂ R l l')
    (himp : ∀ a ∈ l, ∀ b, R a b → S a b) : List.Forall₂ S l l' := by
  induction h with
  | nil => exact .nil
  | cons hhead _ ih =>
    exact .cons (himp _ mem_cons_self _ hhead) (ih fun a ha b => himp a (mem_cons_of_mem _ ha) b)

variable {n : Node} {vs : List Nat} {v : Nat}

theorem valid_reshape (h : n.kind = "Reshape") : Valid opset n ↔ 5 ≤ opset := by
  rw [Valid, if_pos h]

theorem SameForm.valid {n' : Node} (h : SameForm n n') (hv : Valid opset n) : Valid opset n' := by
  rw [Valid, h.kind, h.domain, h.axes, h.inputs]
  exact hv

theorem SameForm.trans {a b c : Node} (h : SameForm a b) (h' : SameForm b c) : SameForm a c :=
  ⟨h'.domain.trans h.domain, h'.kind.trans h.kind, h'.keepdims.trans h.keepdims, h'.axes.trans h.axes,
    h'.inputs.trans h.inputs⟩

/-- What is left of the outputs to handle, each of rank 0 being ready. -/
structure Pending (g : Graph α) (vs : List Nat) : Prop where
  wellFormed : g.WellFormed
  below : ∀ v ∈ vs, v < g.next
  ready : ∀ v ∈ vs, g.sizes v = some [] → g.Ready v ∧ v ∈ g.outputs ∧ vs.count v = 1
  left : ∀ v ∈ g.outputs, g.sizes v = some [] → v ∈ vs

theorem Pending.skip (h : Pending g (v :: vs)) (hs : g.sizes v ≠ some []) : Pending g vs := by
  refine ⟨h.wellFormed, fun u hu => h.below u (mem_cons_of_mem v hu), ?_, ?_⟩
  · intro u hu hus
    obtain ⟨hready, hout, hcount⟩ := h.ready u (mem_cons_of_mem v hu) hus
    refine ⟨hready, hout, ?_⟩
    have hne : v ≠ u := by
      rintro rfl
      exact hs hus
    rwa [count_cons_of_ne hne] at hcount
  · intro u hu hus
    refine (mem_cons.mp (h.left u hu hus)).resolve_left ?_
    rintro rfl
    exact hs hus

theorem Pending.handled (Z : Integers α) (h : Pending g (v :: vs)) (hs : g.sizes v = some []) :
    Pending (handleOutput Z N g v) vs := by
  obtain ⟨hready, hout, hcount⟩ := h.ready v mem_cons_self hs
  have hnot : v ∉ vs := by
    rw [count_cons_self] at hcount
    exact count_eq_zero.mp (by omega)
  refine ⟨wellFormed_handled h.wellFormed hready hout hs, ?_, ?_, ?_⟩
  · intro u hu
    exact lt_of_lt_of_le (h.below u (mem_cons_of_mem v hu)) next_le
  · intro u hu hus
    have hlt := h.below u (mem_cons_of_mem v hu)
    have hne : u ≠ v := by
      rintro rfl
      exact hnot hu
    rw [sizes_old hlt] at hus
    obtain ⟨hready', hout', hcount'⟩ := h.ready u (mem_cons_of_mem v hu) hus
    refine ⟨ready_handled h.wellFormed hready hout hs hready' hout' hne, ?_, ?_⟩
    · rw [handled_outputs hs]
      exact List.mem_map.mpr ⟨u, hout', if_neg hne⟩
    · rwa [count_cons_of_ne hne.symm] at hcount'
  · intro u hu hus
    rw [handled_outputs hs] at hu
    obtain ⟨o, ho, rfl⟩ := List.mem_map.mp hu
    by_cases hov : o = v
    · rw [redirect, if_pos hov, handled_sizes hs, Function.update_self] at hus
      cases Option.some.inj hus
    · rw [redirect, if_neg hov] at hus ⊢
      rw [sizes_old (below_output h.wellFormed ho)] at hus
      exact (mem_cons.mp (h.left o ho hus)).resolve_left hov

theorem kept_of_pending (h : Pending g vs) : Kept M g (vs.foldl (handleOutput M.toIntegers N) g) := by
  induction vs generalizing g with
  | nil =>
    have hnone : ∀ o ∈ g.outputs, g.sizes o ≠ some [] := fun o ho hs => absurd (h.left o ho hs) not_mem_nil
    refine ⟨h.wellFormed.ordered, rfl, rfl, ?_, ?_, ?_, ?_⟩
    · exact forall₂_same.mpr fun o ho => (if_neg (hnone o ho)).symm
    · intro k n n' hn hn'
      obtain rfl : n = n' := Option.some.inj (hn.symm.trans hn')
      exact .inl ⟨rfl, rfl, rfl, rfl, rfl⟩
    · intro k n' hk hn'
      rw [foldl_nil, getElem?_eq_none hk] at hn'
      cases hn'
    · intro feed env hrun _
      refine ⟨env, hrun, forall₂_same.mpr fun o ho => ?_⟩
      rw [Corresponds, if_neg (hnone o ho)]
  | cons v vs ih =>
    rw [foldl_cons]
    by_cases hs : g.sizes v = some []
    swap
    · have hsame : handleOutput M.toIntegers N g v = g := if_neg hs
      rw [hsame]
      exact ih (h.skip hs)
    · obtain ⟨hready, hout, -⟩ := h.ready v mem_cons_self hs
      have hwf := h.wellFormed
      have hrest := ih (h.handled (N := N) M.toIntegers hs)
      have hnodes := handled_nodes_ready (Z := M.toIntegers) (N := N) hwf hready hout hs
      have hat : ∀ (k : Nat) n, g.nodes[k]? = some n → (handleOutput M.toIntegers N g v).nodes[k]? = some (editNode g v n) := by
        intro k n hn
        have hlt := (List.getElem?_eq_some_iff.mp hn).1
        rw [hnodes, getElem?_append_left (by rwa [length_map]), getElem?_map, hn, map_some]
      refine ⟨hrest.ordered, ?_, ?_, ?_, ?_, ?_, ?_⟩
      · rw [hrest.inputs, handled_inputs]
        apply map_congr_left
        intro u hu
        refine name_old (hwf.below u (.inl hu)) ?_
        rintro rfl
        exact hready.fed hu
      · rw [hrest.outputs, handled_outputs hs, List.map_map]
        apply map_congr_left
        intro o ho
        by_cases hov : o = v
        · rw [Function.comp_apply, redirect, if_pos hov, name_new hs, hov]
        · rw [Function.comp_apply, redirect, if_neg hov, name_old (below_output hwf ho) hov]
      · have hsizes := hrest.sizes
        rw [handled_outputs hs, forall₂_map_left_iff] at hsizes
        refine forall₂_imp_of_mem hsizes ?_
        intro o ho o' ho'
        by_cases hov : o = v
        · rw [redirect, if_pos hov, handled_sizes hs, Function.update_self] at ho'
          rw [hov, if_pos hs, ho']
          exact if_neg (by simp)
        · rwa [redirect, if_neg hov, sizes_old (below_output hwf ho)] at ho'
      · intro k n n' hn hn'
        have hrel := hrest.edited k (editNode g v n) n' (hat k n hn) hn'
        rw [handled_opset] at hrel
        obtain hsame | hvalid := hrel
        · obtain hfirst | hfirst := edited_or_valid hwf hready (mem_of_getElem? hn)
          · exact .inl (hfirst.trans hsame)
          · exact .inr (hsame.valid hfirst)
        · exact .inr hvalid
      · intro k n' hk hn'
        have hlen : (handleOutput M.toIntegers N g v).nodes.length = g.nodes.length + 1 := by
          rw [hnodes, length_append, length_map, length_singleton]
        by_cases hlast : k = g.nodes.length
        · have hreshape : (handleOutput M.toIntegers N g v).nodes[k]? =
              some (reshapeNode v (g.next + 1) (g.next + 2)) := by
            rw [hnodes, hlast, getElem?_append_right (by simp)]
            simp
          have hvalid : Valid g.opset (reshapeNode v (g.next + 1) (g.next + 2)) :=
            (valid_reshape rfl).mpr hready.opset
          have hrel := hrest.edited k _ n' hreshape hn'
          rw [handled_opset] at hrel
          obtain hsame | hvalid' := hrel
          · exact hsame.valid hvalid
          · exact hvalid'
        · have hadded := hrest.added k n' (by omega) hn'
          rwa [handled_opset] at hadded
      · intro feed env hrun hranks
        obtain ⟨env₁, hrun₁, hranks₁, ⟨x, hx, hx₁⟩, hold⟩ := run_handled (N := N) hwf hready hout hs hrun hranks
        obtain ⟨env', hrun', hvalues⟩ := hrest.values feed env₁ hrun₁ hranks₁
        refine ⟨env', hrun', ?_⟩
        rw [handled_outputs hs, forall₂_map_left_iff] at hvalues
        refine forall₂_imp_of_mem hvalues ?_
        intro o ho o' ho'
        unfold Corresponds at ho' ⊢
        by_cases hov : o = v
        · have hne : ¬ (handleOutput M.toIntegers N g v).sizes (g.next + 2) = some [] := by
            rw [handled_sizes hs, Function.update_self]
            simp
          rw [redirect, if_pos hov, if_neg hne, hx₁] at ho'
          rw [hov, if_pos hs]
          exact ⟨x, hx, ho'⟩
        · rwa [redirect, if_neg hov, sizes_old (below_output hwf ho), hold o (below_output hwf ho) hov] at ho'

variable {Z : Integers α} {w base : Nat}

def Graph.Reads (g : Graph α) (v : Nat) : Prop := ∃ n ∈ g.nodes, v ∈ n.reads

def Graph.Broken (base : Nat) (g : Graph α) : Prop :=
  ∃ l n r, g.nodes = l ++ n :: r ∧ ∃ x ∈ n.reads, base ≤ x ∧ x ∈ (n :: r).flatMap Node.outputs

theorem Graph.Broken.not_ordered (h : g.Broken base) : ¬ Ordered Node.reads Node.outputs g.nodes := by
  obtain ⟨l, n, r, hnodes, x, hx, -, hmem⟩ := h
  intro hordered
  rw [hnodes] at hordered
  exact hordered.of_split hx hmem

theorem reads_handled (h : g.Reads v) (hne : v ≠ w) : (handleOutput Z N g w).Reads v := by
  by_cases hs : g.sizes w = some []
  · obtain ⟨n, hn, hv⟩ := h
    refine ⟨(editNode g w n).redirect w (g.next + 2), ?_, ?_⟩
    · rw [handled_nodes hs, List.map_map]
      exact mem_append_left _ (List.mem_map_of_mem hn)
    · rw [redirect_reads]
      exact List.mem_map.mpr ⟨v, mem_reads_editNode hv, if_neg hne⟩
  · rw [handleOutput, if_neg hs]
    exact h

theorem reads_self (hs : g.sizes v = some []) : (handleOutput Z N g v).Reads v := by
  refine ⟨reshapeNode v (g.next + 1) (g.next + 2), ?_, mem_cons_self⟩
  rw [handled_nodes hs]
  exact mem_append_right _ (mem_singleton.mpr rfl)

theorem broken_of_reads (hs : g.sizes v = some []) (h : g.Reads v) (hbase : base ≤ g.next) :
    (handleOutput Z N g v).Broken base := by
  obtain ⟨n, hn, hv⟩ := h
  obtain ⟨l, r, hlr⟩ := append_of_mem hn
  refine ⟨(l.map (editNode g v)).map (Node.redirect v (g.next + 2)), (editNode g v n).redirect v (g.next + 2),
    (r.map (editNode g v)).map (Node.redirect v (g.next + 2)) ++ [reshapeNode v (g.next + 1) (g.next + 2)], ?_,
    g.next + 2, ?_, by omega, ?_⟩
  · rw [handled_nodes hs, hlr, map_append, map_append, map_cons, map_cons, append_assoc,
      cons_append]
  · rw [redirect_reads]
    exact List.mem_map.mpr ⟨v, mem_reads_editNode hv, if_pos rfl⟩
  · rw [flatMap_cons, flatMap_append]
    exact mem_append_right _ (mem_append_right _ (by simp [reshapeNode]))

theorem broken_handled (h : g.Broken base) (hw : w < base) : (handleOutput Z N g w).Broken base := by
  by_cases hs : g.sizes w = some []
  · obtain ⟨l, n, r, hnodes, x, hx, hbase, hmem⟩ := h
    refine ⟨(l.map (editNode g w)).map (Node.redirect w (g.next + 2)), (editNode g w n).redirect w (g.next + 2),
      (r.map (editNode g w)).map (Node.redirect w (g.next + 2)) ++ [reshapeNode w (g.next + 1) (g.next + 2)], ?_,
      x, ?_, hbase, ?_⟩
    · rw [handled_nodes hs, hnodes, map_append, map_append, map_cons, map_cons, append_assoc,
        cons_append]
    · rw [redirect_reads]
      exact List.mem_map.mpr ⟨x, mem_reads_editNode hx, if_neg (by omega)⟩
    · rw [flatMap_cons, redirect_outputs, editNode_outputs, flatMap_append]
      rw [flatMap_cons, mem_append] at hmem
      obtain hmem | hmem := hmem
      · exact mem_append_left _ hmem
      · obtain ⟨m, hm, hxm⟩ := mem_flatMap.mp hmem
        refine mem_append_right _ (mem_append_left _ (mem_flatMap.mpr
          ⟨(editNode g w m).redirect w (g.next + 2), List.mem_map_of_mem (List.mem_map_of_mem hm), ?_⟩))
        rwa [redirect_outputs, editNode_outputs]
  · rw [handleOutput, if_neg hs]
    exact h

theorem broken_fold (h : g.Broken base) (hvs : ∀ w ∈ vs, w < base) : (vs.foldl (handleOutput Z N) g).Broken base := by
  induction vs generalizing g with
  | nil => exact h
  | cons w vs ih =>
    exact ih (broken_handled h (hvs w mem_cons_self)) fun u hu => hvs u (mem_cons_of_mem w hu)

theorem broken_of_mem (h : g.Reads v) (hmem : v ∈ vs) (hs : g.sizes v = some []) (hvs : ∀ w ∈ vs, w < base)
    (hbase : base ≤ g.next) : (vs.foldl (handleOutput Z N) g).Broken base := by
  induction vs generalizing g with
  | nil => cases hmem
  | cons w vs ih =>
    have hrest : ∀ u ∈ vs, u < base := fun u hu => hvs u (mem_cons_of_mem w hu)
    rw [foldl_cons]
    by_cases hvw : v = w
    · subst hvw
      exact broken_fold (broken_of_reads hs h hbase) hrest
    · have hlt : v < g.next := lt_of_lt_of_le (hvs v hmem) hbase
      exact ih (reads_handled h hvw) ((mem_cons.mp hmem).resolve_left hvw) (by rw [sizes_old hlt, hs]) hrest
        (hbase.trans next_le)

theorem broken_of_twice (hs : g.sizes v = some []) (hcount : 2 ≤ vs.count v) (hvs : ∀ w ∈ vs, w < base)
    (hbase : base ≤ g.next) : (vs.foldl (handleOutput Z N) g).Broken base := by
  induction vs generalizing g with
  | nil => simp at hcount
  | cons w vs ih =>
    have hrest : ∀ u ∈ vs, u < base := fun u hu => hvs u (mem_cons_of_mem w hu)
    have hmem : v ∈ w :: vs := count_pos_iff.mp (by omega)
    have hlt : v < g.next := lt_of_lt_of_le (hvs v hmem) hbase
    have hs' : (handleOutput Z N g w).sizes v = some [] := by rw [sizes_old hlt, hs]
    rw [foldl_cons]
    by_cases hvw : w = v
    · subst hvw
      rw [count_cons_self] at hcount
      exact broken_of_mem (reads_self hs) (count_pos_iff.mp (by omega)) hs' hrest (hbase.trans next_le)
    · rw [count_cons_of_ne hvw] at hcount
      exact ih hs' hcount hrest (hbase.trans next_le)

theorem name_fold (hv : v < g.next) (hnot : v ∉ vs) : (vs.foldl (handleOutput Z N) g).name v = g.name v := by
  induction vs generalizing g with
  | nil => rfl
  | cons w vs ih =>
    rw [mem_cons, not_or] at hnot
    rw [foldl_cons, ih (lt_of_lt_of_le hv next_le) hnot.2, name_old hv hnot.1]

theorem next_fold : g.next ≤ (vs.foldl (handleOutput Z N) g).next := by
  induction vs generalizing g with
  | nil => rfl
  | cons w vs ih => exact next_le.trans ih

theorem sizes_fold (hv : v < g.next) : (vs.foldl (handleOutput Z N) g).sizes v = g.sizes v := by
  induction vs generalizing g with
  | nil => rfl
  | cons w vs ih => rw [foldl_cons, ih (lt_of_lt_of_le hv next_le), sizes_old hv]

theorem fixed_fold : (vs.foldl (handleOutput Z N) g).inputs = g.inputs ∧
    (vs.foldl (handleOutput Z N) g).opset = g.opset := by
  induction vs generalizing g with
  | nil => exact ⟨rfl, rfl⟩
  | cons w vs ih =>
    rw [foldl_cons]
    exact ⟨ih.1.trans handled_inputs, ih.2.trans handled_opset⟩

theorem name_lost (hs : g.sizes v = some []) (hv : v < g.next) (hcount : vs.count v = 1) :
    (vs.foldl (handleOutput Z N) g).name v ≠ g.name v := by
  obtain ⟨l, r, rfl⟩ := append_of_mem (count_pos_iff.mp (by omega : 0 < vs.count v))
  rw [count_append, count_cons_self] at hcount
  have hl : v ∉ l := count_eq_zero.mp (by omega)
  have hr : v ∉ r := count_eq_zero.mp (by omega)
  have hlt : v < (l.foldl (handleOutput Z N) g).next := lt_of_lt_of_le hv next_fold
  have hs' : (l.foldl (handleOutput Z N) g).sizes v = some [] := by rw [sizes_fold hv, hs]
  rw [foldl_append, foldl_cons, name_fold (lt_of_lt_of_le hlt next_le) hr, handled_name hs',
    Function.update_of_ne (by omega), Function.update_self]
  have hunique := N.unique (editProducer Z (l.foldl (handleOutput Z N) g) v) v (Nat.lt_succ_of_lt hlt)
  rwa [show (editProducer Z (l.foldl (handleOutput Z N) g) v).name v = g.name v from name_fold hv hl] at hunique

variable {g' g'' : Graph α} {k : Nat} {n' n'' : Node}

def Graph.ReadsBelow (g : Graph α) : Prop := ∀ n ∈ g.nodes, ∀ x ∈ n.reads, x < g.next

/-- What stays of a node while the pass goes on; once the axes of a reduction are spelled out, they remain so. -/
structure Tracks (g : Graph α) (n : Node) (g' : Graph α) (n' : Node) : Prop where
  domain : n'.domain = n.domain
  kind : n'.kind = n.kind
  outputs : n'.outputs = n.outputs
  keepdims : n.keepdims = some 1 → n'.keepdims = some 1
  axes : n.axes.isSome → n'.axes.isSome
  inputs : n.inputs.length ≤ n'.inputs.length
  spelled : ∀ r, spelledRank g.sizes n = some r →
    spelledRank g'.sizes n' = some r ∨ if 18 ≤ g.opset then 1 < n'.inputs.length else n'.axes.isSome = true

theorem Tracks.refl (g : Graph α) (n : Node) : Tracks g n g n :=
  ⟨rfl, rfl, rfl, id, id, le_rfl, fun _ hr => .inl hr⟩

theorem Tracks.trans (h : Tracks g n g' n') (h' : Tracks g' n' g'' n'') (hopset : g'.opset = g.opset) :
    Tracks g n g'' n'' := by
  refine ⟨h'.domain.trans h.domain, h'.kind.trans h.kind, h'.outputs.trans h.outputs, fun hk => h'.keepdims (h.keepdims hk),
    fun ha => h'.axes (h.axes ha), h.inputs.trans h'.inputs, ?_⟩
  intro r hr
  obtain hleft | hright := h.spelled r hr
  · have hspelled := h'.spelled r hleft
    rwa [hopset] at hspelled
  · right
    split_ifs at hright ⊢ with hinput
    · exact lt_of_lt_of_le hright h'.inputs
    · exact h'.axes hright

theorem readsBelow_handled (h : g.ReadsBelow) (hw : w < g.next) : (handleOutput Z N g w).ReadsBelow := by
  by_cases hs : g.sizes w = some []
  · intro n' hn' x hx
    rw [handled_next hs]
    rw [handled_nodes hs, List.map_map] at hn'
    obtain hn' | hn' := mem_append.mp hn'
    · obtain ⟨n, hn, rfl⟩ := List.mem_map.mp hn'
      rw [Function.comp_apply, redirect_reads] at hx
      obtain ⟨y, hy, rfl⟩ := List.mem_map.mp hx
      have hlt : y ≤ g.next := by
        obtain hread | rfl := mem_reads_of_editNode hy
        · exact (h n hn y hread).le
        · exact le_rfl
      unfold redirect
      split_ifs
      · omega
      · omega
    · obtain rfl := mem_singleton.mp hn'
      have hcases : x = w ∨ x = g.next + 1 := by simpa [Node.reads, reshapeNode] using hx
      omega
  · rw [handleOutput, if_neg hs]
    exact h

theorem editNode_tracks (hs : g.sizes w = some []) (hbelow : ∀ x ∈ n.reads, x < g.next) :
    Tracks g n (handleOutput Z N g w) ((editNode g w n).redirect w (g.next + 2)) ∧
      (isEdited w n = true → (editNode g w n).keepdims = some 1 ∧ ∀ r, spelledRank g.sizes n = some r →
        if 18 ≤ g.opset then 1 < ((editNode g w n).redirect w (g.next + 2)).inputs.length
        else ((editNode g w n).redirect w (g.next + 2)).axes.isSome = true) := by
  have hlen : ∀ m : Node, (m.redirect w (g.next + 2)).inputs.length = m.inputs.length := fun m => length_map _
  have hhead : ∀ x, n.inputs.head? = some x → x < g.next := fun x hx =>
    hbelow x (mem_append_left _ (mem_of_mem_head? hx))
  obtain ⟨hno, heq⟩ | ⟨hyes, hnone, heq⟩ | ⟨r, hyes, hr, hopset, heq⟩ | ⟨r, hyes, hr, hopset, heq⟩ := editNode_cases g w n
  · rw [heq]
    refine ⟨⟨rfl, rfl, rfl, id, id, (hlen n).ge, ?_⟩, fun hyes => by rw [hno] at hyes; cases hyes⟩
    intro r hr
    left
    obtain ⟨hnamed, hr0, x, ds, hx, hds, hl⟩ := spelledRank_eq_some.mp hr
    refine spelledRank_eq_some.mpr ⟨?_, hr0, x, ds, ?_, ?_, hl⟩
    · rw [named, hlen]
      exact hnamed
    · show (n.inputs.map (redirect w (g.next + 2))).head? = some x
      rw [head?_map, hx, map_some, redirect, if_neg]
      rintro rfl
      rw [hs] at hds
      obtain rfl := Option.some.inj hds
      exact hr0 hl.symm
    · rw [sizes_old (hhead x hx), hds]
  · rw [heq]
    have hnothing : ∀ r, spelledRank g.sizes n ≠ some r := fun r hr => by rw [hnone] at hr; cases hr
    exact ⟨⟨rfl, rfl, rfl, fun _ => rfl, id, (hlen n).ge, fun r hr => absurd hr (hnothing r)⟩,
      fun _ => ⟨rfl, fun r hr => absurd hr (hnothing r)⟩⟩
  · have hlong : 1 < ((editNode g w n).redirect w (g.next + 2)).inputs.length := by
      have hpos := length_pos_iff.mpr (isEdited_iff.mp hyes).2.2
      rw [hlen, heq, length_append, length_singleton]
      omega
    rw [if_pos hopset]
    refine ⟨⟨by rw [heq]; rfl, by rw [heq]; rfl, by rw [heq]; rfl, fun _ => by rw [heq]; rfl, fun ha => by rw [heq]; exact ha, ?_,
      fun _ _ => .inr (by rw [if_pos hopset]; exact hlong)⟩, fun _ => ⟨by rw [heq], fun _ _ => hlong⟩⟩
    rw [hlen, heq, length_append]
    omega
  · have hsome : ((editNode g w n).redirect w (g.next + 2)).axes.isSome = true := by
      rw [heq]
      rfl
    rw [if_neg hopset]
    refine ⟨⟨by rw [heq]; rfl, by rw [heq]; rfl, by rw [heq]; rfl, fun _ => by rw [heq]; rfl, fun _ => hsome, ?_,
      fun _ _ => .inr (by rw [if_neg hopset]; exact hsome)⟩, fun _ => ⟨by rw [heq], fun _ _ => hsome⟩⟩
    rw [hlen, heq]

theorem handled_at (hs : g.sizes w = some []) (hn : g.nodes[k]? = some n) :
    (handleOutput Z N g w).nodes[k]? = some ((editNode g w n).redirect w (g.next + 2)) := by
  have hlt := (List.getElem?_eq_some_iff.mp hn).1
  rw [handled_nodes hs, List.map_map, getElem?_append_left (by rwa [length_map]), getElem?_map, hn]
  rfl

theorem tracks_handled (hbelow : g.ReadsBelow) (hn : g.nodes[k]? = some n) :
    ∃ n', (handleOutput Z N g w).nodes[k]? = some n' ∧ Tracks g n (handleOutput Z N g w) n' := by
  by_cases hs : g.sizes w = some []
  · exact ⟨_, handled_at hs hn, (editNode_tracks hs (hbelow n (mem_of_getElem? hn))).1⟩
  · rw [handleOutput, if_neg hs]
    exact ⟨n, hn, .refl g n⟩

theorem tracks_fold (hbelow : g.ReadsBelow) (hvs : ∀ w ∈ vs, w < g.next) (hn : g.nodes[k]? = some n) :
    (vs.foldl (handleOutput Z N) g).ReadsBelow ∧
      ∃ n', (vs.foldl (handleOutput Z N) g).nodes[k]? = some n' ∧ Tracks g n (vs.foldl (handleOutput Z N) g) n' := by
  induction vs generalizing g n with
  | nil => exact ⟨hbelow, n, hn, .refl g n⟩
  | cons w vs ih =>
    obtain ⟨n₁, hn₁, htracks⟩ := tracks_handled (Z := Z) (N := N) (w := w) hbelow hn
    obtain ⟨hbelow', n', hn', htracks'⟩ := ih (readsBelow_handled hbelow (hvs w mem_cons_self))
      (fun u hu => lt_of_lt_of_le (hvs u (mem_cons_of_mem w hu)) next_le) hn₁
    exact ⟨hbelow', n', hn', htracks.trans htracks' handled_opset⟩

/-- After the pass, the reduction that makes a rank-0 output keeps its axes, which are spelled out if they can be. -/
theorem edited_fold (hbelow : g.ReadsBelow) (hvs : ∀ w ∈ vs, w < g.next) (hv : v ∈ vs) (hs : g.sizes v = some [])
    (hn : g.nodes[k]? = some n) (hedited : isEdited v n = true) :
    ∃ n', (vs.foldl (handleOutput Z N) g).nodes[k]? = some n' ∧ n'.domain = n.domain ∧ n'.kind = n.kind ∧
      n'.keepdims = some 1 ∧ ∀ r, spelledRank g.sizes n = some r →
        if 18 ≤ g.opset then 1 < n'.inputs.length else n'.axes.isSome = true := by
  obtain ⟨l, r, rfl⟩ := append_of_mem hv
  have hl : ∀ w ∈ l, w < g.next := fun w hw => hvs w (mem_append_left _ hw)
  have hvlt := hvs v hv
  obtain ⟨hbelow₁, n₁, hn₁, htracks₁⟩ := tracks_fold (Z := Z) (N := N) hbelow hl hn
  have hopset₁ : (l.foldl (handleOutput Z N) g).opset = g.opset := fixed_fold.2
  have hs₁ : (l.foldl (handleOutput Z N) g).sizes v = some [] := by rw [sizes_fold hvlt, hs]
  have hedited₁ : isEdited v n₁ = true := by
    obtain ⟨hout, hkind, hne⟩ := isEdited_iff.mp hedited
    refine isEdited_iff.mpr ⟨by rwa [htracks₁.outputs], by rwa [htracks₁.kind], ?_⟩
    intro hnil
    have hlen := htracks₁.inputs
    rw [hnil] at hlen
    exact hne (length_eq_zero_iff.mp (Nat.le_zero.mp hlen))
  obtain ⟨htracks₂, hmade⟩ := editNode_tracks (Z := Z) (N := N) hs₁
    (hbelow₁ n₁ (mem_of_getElem? hn₁))
  obtain ⟨hkeep₂, hspelled₂⟩ := hmade hedited₁
  have hlt₁ : v < (l.foldl (handleOutput Z N) g).next := lt_of_lt_of_le hvlt next_fold
  have hr : ∀ w ∈ r, w < (handleOutput Z N (l.foldl (handleOutput Z N) g) v).next := fun w hw =>
    lt_of_lt_of_le (hvs w (mem_append_right _ (mem_cons_of_mem v hw))) (next_fold.trans next_le)
  obtain ⟨-, n₃, hn₃, htracks₃⟩ := tracks_fold (Z := Z) (N := N) (readsBelow_handled hbelow₁ hlt₁) hr
    (handled_at hs₁ hn₁)
  refine ⟨n₃, by rw [foldl_append, foldl_cons]; exact hn₃,
    htracks₃.domain.trans (htracks₂.domain.trans htracks₁.domain), htracks₃.kind.trans (htracks₂.kind.trans htracks₁.kind),
    htracks₃.keepdims hkeep₂, ?_⟩
  intro rk hrk
  have hsecond : if 18 ≤ g.opset then 1 < ((editNode (l.foldl (handleOutput Z N) g) v n₁).redirect v
      ((l.foldl (handleOutput Z N) g).next + 2)).inputs.length
      else ((editNode (l.foldl (handleOutput Z N) g) v n₁).redirect v
        ((l.foldl (handleOutput Z N) g).next + 2)).axes.isSome = true := by
    obtain hleft | hright := htracks₁.spelled rk hrk
    · have hspelled := hspelled₂ rk hleft
      rwa [hopset₁] at hspelled
    · split_ifs at hright ⊢ with hinput
      · exact lt_of_lt_of_le hright htracks₂.inputs
      · exact htracks₂.axes hright
  split_ifs at hsecond ⊢ with hinput
  · exact lt_of_lt_of_le hsecond htracks₃.inputs
  · exact htracks₃.axes hsecond

theorem added_fold (hbelow : g.ReadsBelow) (hvs : ∀ w ∈ vs, w < g.next) (hv : v ∈ vs) (hs : g.sizes v = some []) :
    ∃ k n', g.nodes.length ≤ k ∧ (vs.foldl (handleOutput Z N) g).nodes[k]? = some n' ∧ n'.kind = "Reshape" := by
  obtain ⟨l, r, rfl⟩ := append_of_mem hv
  have hl : ∀ w ∈ l, w < g.next := fun w hw => hvs w (mem_append_left _ hw)
  have hvlt := hvs v hv
  have hbelow₁ : (l.foldl (handleOutput Z N) g).ReadsBelow := by
    clear hv hvs
    induction l generalizing g with
    | nil => exact hbelow
    | cons w l ih =>
      have hw := hl w mem_cons_self
      exact ih (readsBelow_handled hbelow hw) (by rw [sizes_old hvlt, hs])
        (fun u hu => lt_of_lt_of_le (hl u (mem_cons_of_mem w hu)) next_le) (lt_of_lt_of_le hvlt next_le)
  have hs₁ : (l.foldl (handleOutput Z N) g).sizes v = some [] := by rw [sizes_fold hvlt, hs]
  have hlen : ∀ (ws : List Nat) (g : Graph α), g.nodes.length ≤ (ws.foldl (handleOutput Z N) g).nodes.length := by
    intro ws
    induction ws with
    | nil => exact fun g => le_rfl
    | cons w ws ih =>
      intro g
      refine le_trans ?_ (ih (handleOutput Z N g w))
      by_cases hw : g.sizes w = some []
      · rw [handled_nodes hw, length_append, length_map, length_map]
        omega
      · rw [handleOutput, if_neg hw]
  have hreshape : (handleOutput Z N (l.foldl (handleOutput Z N) g) v).nodes[
      (l.foldl (handleOutput Z N) g).nodes.length]? = some (reshapeNode v ((l.foldl (handleOutput Z N) g).next + 1)
        ((l.foldl (handleOutput Z N) g).next + 2)) := by
    rw [handled_nodes hs₁, List.map_map, getElem?_append_right (by simp)]
    simp
  have hr : ∀ w ∈ r, w < (handleOutput Z N (l.foldl (handleOutput Z N) g) v).next := fun w hw =>
    lt_of_lt_of_le (hvs w (mem_append_right _ (mem_cons_of_mem v hw))) (next_fold.trans next_le)
  obtain ⟨-, n', hn', htracks⟩ := tracks_fold (Z := Z) (N := N)
    (readsBelow_handled hbelow₁ (lt_of_lt_of_le hvlt next_fold)) hr hreshape
  exact ⟨_, n', hlen l g, by rw [foldl_append, foldl_cons]; exact hn', htracks.kind⟩

/-- The pass keeps the graph exactly where every rank-0 output is one that it can handle. -/
theorem rank0ToRank1_kept_iff (r : ScalarRun α) : r.Kept ↔ r.Safe := by
  have hwf := r.wellFormed
  have hbelow : r.graph.ReadsBelow := fun n hn x hx => below_reads hwf hn hx
  have houts : ∀ w ∈ r.graph.outputs, w < r.graph.next := fun w hw => below_output hwf hw
  constructor
  · intro hkept v hv hs
    have hunbroken : ¬ (runPass r.meaning.toIntegers r.namer r.graph).Broken r.graph.next := fun hbroken =>
      hbroken.not_ordered hkept.ordered
    have hcount : r.graph.outputs.count v = 1 := by
      by_contra hne
      have hpos := count_pos_iff.mpr hv
      exact hunbroken (broken_of_twice hs (by omega) houts le_rfl)
    refine ⟨hcount, ?_, ?_, ?_, ?_⟩
    · obtain ⟨k, n', hk, hn', hkind⟩ := added_fold (Z := r.meaning.toIntegers) (N := r.namer) hbelow houts hv hs
      have hvalid := hkept.added k n' hk hn'
      exact (valid_reshape hkind).mp hvalid
    · intro hin
      have hnames := hkept.inputs
      have hfixed : (runPass r.meaning.toIntegers r.namer r.graph).inputs = r.graph.inputs := fixed_fold.1
      rw [hfixed] at hnames
      exact name_lost hs (houts v hv) hcount (map_inj_left.mp hnames v hin)
    · intro n hn hread
      exact hunbroken (broken_of_mem ⟨n, hn, hread⟩ hv hs houts le_rfl)
    · intro n hn hedited
      obtain ⟨k, hk⟩ := mem_iff_getElem?.mp hn
      obtain ⟨n', hn', hdomain, hkind, hkeep, hspelled⟩ :=
        edited_fold (Z := r.meaning.toIntegers) (N := r.namer) hbelow houts hv hs hk hedited
      have hreshape := kind_ne_reshape (isEdited_iff.mp hedited).2.1
      have hform := hkept.edited k n n' hk hn'
      -- a node of the same form had nothing to spell out
      have hnothing : SameForm n n' → spelledRank r.graph.sizes n = none := by
        intro hsame
        cases hrank : spelledRank r.graph.sizes n with
        | none => rfl
        | some rk =>
          obtain ⟨hnamed, -⟩ := spelledRank_eq_some.mp hrank
          have hparts : n.axes = none ∧ n.inputs.length ≤ 1 := by simpa [named] using hnamed
          have hthere := hspelled rk hrank
          rw [hsame.axes, hsame.inputs, hparts.1] at hthere
          split_ifs at hthere
          · omega
          · cases hthere
      constructor
      · obtain hsame | hvalid := hform
        · exact .inr ⟨hsame.keepdims ▸ hkeep, hnothing hsame⟩
        · rw [Valid, if_neg (by rwa [hkind])] at hvalid
          exact .inl (hdomain ▸ hvalid.1)
      · rintro ⟨hsum, hlow, hhigh, hne⟩
        obtain hsame | hvalid := hform
        · exact hne (hnothing hsame)
        · rw [Valid, if_neg (by rwa [hkind])] at hvalid
          obtain ⟨rk, hrank⟩ := ne_none_iff_exists'.mp hne
          have hthere := hspelled rk hrank
          rw [if_neg (by omega)] at hthere
          have hinput : axesAreInput n'.kind r.graph.opset := by
            rw [hkind, hsum, axesAreInput, if_pos rfl]
            exact hlow
          rw [hvalid.2.1 hinput] at hthere
          cases hthere
  · intro hsafe
    refine kept_of_pending ⟨hwf, houts, ?_, fun v hv _ => hv⟩
    intro v hv hs
    exact ⟨(hsafe v hv hs).2, hv, (hsafe v hv hs).1⟩

def numberedNames (α : Type) : Namer α where
  uniqueName g :=
    FreshNames.numbered "" (FreshNames.search (FreshNames.numbered "") ((List.range g.next).map g.name) (g.next + 1) 0)
  unique g v hv := by
    intro heq
    have hfresh : FreshNames.numbered "" (FreshNames.search (FreshNames.numbered "") ((List.range g.next).map g.name)
        (g.next + 1) 0) ∉ (List.range g.next).map g.name :=
      FreshNames.search_fresh (FreshNames.numbered_injective "") (by simp) 0
    exact hfresh (heq ▸ List.mem_map_of_mem (mem_range.mpr hv))

def sums : Meaning Int where
  toInt := id
  ofInt := id
  toInt_ofInt _ := rfl
  reduction _ := List.sum
  other _ _ _ := none

/-- A loss that the graph gives out, and from which a node makes another output if it is scaled. -/
def lossGraph (scaled : Bool) : Graph Int where
  opset := 17
  inputs := [0]
  initializers := []
  nodes := ⟨none, "ReduceMean", some 0, some [0], none, "", [0], [], [1]⟩ ::
    if scaled then [⟨none, "Mul", none, none, none, "", [1, 1], [], [2]⟩] else []
  outputs := 1 :: if scaled then [2] else []
  sizes v := if v = 0 then some [.size 2] else some []
  name := toString
  next := 3

theorem lossGraph_wellFormed (scaled : Bool) : (lossGraph scaled).WellFormed := by
  cases scaled with
  | true =>
    refine ⟨by simp [lossGraph, Ordered, Node.reads], by decide, ?_, ?_, ?_, ?_⟩
    · simp [lossGraph]
    · simp [lossGraph]
    · simp only [lossGraph, Node.reads]
      simp
      omega
    · intro n hn hkind _
      obtain rfl | rfl : n = _ ∨ n = _ := by simpa [lossGraph] using hn
      · simp [Valid, axesAreInput, lossGraph]
      · exact absurd hkind (by decide)
  | false =>
    refine ⟨by simp [lossGraph, Ordered, Node.reads], by decide, ?_, ?_, ?_, ?_⟩
    · simp [lossGraph]
    · simp [lossGraph]
    · simp [lossGraph, Node.reads]
    · intro n hn _ _
      obtain rfl : n = _ := by simpa [lossGraph] using hn
      simp [Valid, axesAreInput, lossGraph]

/-- The loss alone is kept. -/
theorem single_loss_kept : ∃ r : ScalarRun Int, r.graph = lossGraph false ∧ r.Kept := by
  refine ⟨⟨lossGraph false, lossGraph_wellFormed false, sums, numberedNames Int⟩, rfl, ?_⟩
  rw [rank0ToRank1_kept_iff]
  intro v hv _
  obtain rfl : v = 1 := by simpa [lossGraph] using hv
  refine ⟨rfl, by decide, by decide, by decide, ?_⟩
  intro n hn _
  obtain rfl : n = _ := by simpa [lossGraph] using hn
  exact ⟨.inl rfl, by simp⟩

/-- A loss that a node reads is read before the Reshape makes it. -/
theorem consumed_loss_broken : ∃ r : ScalarRun Int, r.graph = lossGraph true ∧ ¬ r.Kept := by
  refine ⟨⟨lossGraph true, lossGraph_wellFormed true, sums, numberedNames Int⟩, rfl, ?_⟩
  intro hkept
  refine Graph.Broken.not_ordered (show Graph.Broken 3 _ from ?_) hkept.ordered
  exact broken_of_mem (v := 1) ⟨⟨none, "Mul", none, none, none, "", [1, 1], [], [2]⟩, by decide, by decide⟩ (by decide) rfl
    (by decide) (by decide)

end Onnxsim.Passes.ScalarOutputs
