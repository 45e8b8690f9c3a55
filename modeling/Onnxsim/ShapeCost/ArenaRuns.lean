import Onnxsim.ShapeCost.ArenaSound

namespace Onnxsim.ShapeCost.ArenaRuns

open List Lib.AccessTraces ArenaPlans ArenaSound
  Lifetimes

section

variable {g : Graph} {offsets : Offsets} {actual : String → Actual} {x o : String} {i j : Nat} {n node : Node}

theorem active_made (hn : g.nodes[i]? = some n) (hx : x ∈ n.outputs) (hne : x ≠ "") : Active g x := .inr ⟨i, n, hn, hx, hne⟩

theorem active_read (hssa : g.Ssa) (hn : g.nodes[i]? = some n) (hx : x ∈ n.inputs) (hne : x ≠ "")
    (hinit : x ∉ g.initializers) : Active g x := by
  obtain hbad | hin | ⟨j, m, -, hm, hmade⟩ := hssa.ordered i n x hn hx hne
  · exact absurd hbad hinit
  · exact .inl (mem_filter.mpr ⟨hin, by simpa using hinit⟩)
  · exact active_made hm hmade hne

theorem span_lt_of_read (hssa : g.Ssa) (hn : g.nodes[i]? = some n) (hx : x ∈ n.inputs) (hne : x ≠ "")
    (hinit : x ∉ g.initializers) : (span g x).1 < i := by
  obtain hbad | hin | ⟨j, m, hlt, hm, hmade⟩ := hssa.ordered i n x hn hx hne
  · exact absurd hbad hinit
  · rw [span_input (mem_filter.mpr ⟨hin, by simpa using hinit⟩)]
    omega
  · rw [span_made hssa hm hmade hne]
    omega

theorem not_init_of_active (hssa : g.Ssa) (hx : Active g x) : x ∉ g.initializers := by
  obtain hin | ⟨j, m, hm, hmade, hne⟩ := hx
  · simpa using (mem_filter.mp hin).2
  · exact (hssa.fresh m (mem_of_getElem? hm) x hmade hne).2

theorem inPlace_spans (hssa : g.Ssa) (h : InPlace g offsets actual j node x o) (hx : Active g x) :
    (span g x).1 < j ∧ (span g o).1 = j ∧ (span g x).2 = j :=
  ⟨span_lt_of_read hssa h.node_eq h.input h.input_ne (not_init_of_active hssa hx),
    span_made hssa h.node_eq h.output h.output_ne, h.last⟩

theorem made_of_span (hssa : g.Ssa) (hx : Active g x) (hspan : (span g x).1 = i) :
    ∃ n, g.nodes[i]? = some n ∧ x ∈ n.outputs ∧ x ≠ "" := by
  obtain hin | ⟨j, m, hm, hmade, hne⟩ := hx
  · rw [span_input hin] at hspan
    omega
  · rw [span_made hssa hm hmade hne] at hspan
    obtain rfl : j = i := by omega
    exact ⟨m, hm, hmade, hne⟩

theorem input_of_span (hssa : g.Ssa) (hx : Active g x) (hspan : (span g x).1 < 0) : x ∈ g.inNames := by
  obtain hin | ⟨j, m, hm, hmade, hne⟩ := hx
  · exact hin
  · rw [span_made hssa hm hmade hne] at hspan
    omega

variable {arena : Int} {b : Bounds} {pre tr : Trace}

/-- Before the node `i` every tensor that is made and still needed is stored. -/
def Stored (g : Graph) (offsets : Offsets) (actual : String → Actual) (i : Nat) (pre : Trace) : Prop :=
  ∀ x, Active g x → (span g x).1 < i → (i : Int) ≤ (span g x).2 → ∀ k < (actual x).bytes, Holds offsets.address pre x k

theorem address_inj {j k : Nat} (h : offsets.address x j = offsets.address x k) : j = k := by
  simp only [Offsets.address] at h
  omega

variable (hssa : g.Ssa) (haccepted : Accepted g offsets arena (tensorsOf g b)) (hrange : InRange (tensorsOf g b) actual)

include hssa haccepted hrange

/-- What a node writes on the place of a tensor that was made before and is still needed, it computes in place. -/
theorem inPlace_of_write (hn : g.nodes[i]? = some n) (hx : Active g x) (hbefore : (span g x).1 < i)
    (hneeded : (i : Int) ≤ (span g x).2) (ho : o ∈ n.outputs) (hone : o ≠ "") {j k : Nat} (hj : j < (actual o).bytes)
    (hk : k < (actual x).bytes) (haddress : offsets.address o j = offsets.address x k) :
    InPlace g offsets actual i n x o := by
  have hospan := span_made hssa hn ho hone
  have hoend := le_span_made hssa hn ho hone
  have hoactive := active_made hn ho hone
  have hne : x ≠ o := by
    rintro rfl
    omega
  obtain ⟨i', node, hpair | hpair⟩ := inPlace_of_shared hssa haccepted hrange hx hoactive hne (by omega) (by omega) hk hj
    haddress.symm
  · obtain ⟨-, hmade, -⟩ := inPlace_spans hssa hpair hx
    obtain rfl : i' = i := by omega
    obtain rfl : node = n := Option.some.inj (hpair.node_eq.symm.trans hn)
    exact hpair
  · obtain ⟨hlt, hmade, -⟩ := inPlace_spans hssa hpair hoactive
    omega

theorem holds_read (hstored : Stored g offsets actual i pre) (hn : g.nodes[i]? = some n)
    (hrun : NodeRun g actual n tr) {p q : Trace} {k : Nat} (htr : tr = p ++ .read x k :: q) :
    Holds offsets.address (pre ++ p) x k := by
  obtain ⟨hin, hne, hinit, hk⟩ := hrun.reads x k (htr ▸ mem_append_right p mem_cons_self)
  have hx := active_read hssa hn hin hne hinit
  have hbefore := span_lt_of_read hssa hn hin hne hinit
  have hneeded := le_span_read hn hin hne
  apply (hstored x hx hbefore hneeded k hk).append
  intro o j v hwrite haddress
  obtain ⟨ho, hone, hj⟩ := hrun.writes o j v (htr ▸ mem_append_left _ hwrite)
  have hpair := inPlace_of_write hssa haccepted hrange hn hx hbefore hneeded ho hone hj hk haddress
  obtain ⟨width, -, helementwise⟩ := hrun.elementwise
  obtain ⟨e, hsource, hunwritten⟩ := helementwise o ho x hpair.operand p k q htr
  have hjk : j = k := by
    have hoffset := hpair.offset_eq
    simp only [Offsets.address] at haddress
    omega
  exact absurd (hjk ▸ hpair.same e _ hsource) (hunwritten j v hwrite)

theorem stored_step (hstored : Stored g offsets actual i pre) (hn : g.nodes[i]? = some n)
    (hrun : NodeRun g actual n tr) : Stored g offsets actual (i + 1) (pre ++ tr) := by
  intro x hx hbefore hneeded k hk
  by_cases hold : (span g x).1 < i
  · apply (hstored x hx hold (by omega) k hk).append
    intro o j v hwrite haddress
    obtain ⟨ho, hone, hj⟩ := hrun.writes o j v hwrite
    have hpair := inPlace_of_write hssa haccepted hrange hn hx hold (by omega) ho hone hj hk haddress
    have hlast := hpair.last
    omega
  · obtain ⟨m, hm, hmade, hne⟩ := made_of_span hssa hx (show (span g x).1 = i by omega)
    obtain rfl : m = n := Option.some.inj (hm.symm.trans hn)
    obtain ⟨v, hv⟩ := hrun.complete x hmade hne k hk
    refine holds_of_write pre ?_ hv
    intro o j w hwrite haddress
    obtain ⟨ho, hone, hj⟩ := hrun.writes o j w hwrite
    have hospan := span_made hssa hn ho hone
    have hoend := le_span_made hssa hn ho hone
    have hoactive := active_made hn ho hone
    by_cases heq : o = x
    · subst heq
      exact ⟨rfl, address_inj haddress⟩
    · obtain ⟨i', node, hpair | hpair⟩ := inPlace_of_shared hssa haccepted hrange hoactive hx heq (by omega) (by omega) hj hk
        haddress
      · obtain ⟨hlt, hmade', -⟩ := inPlace_spans hssa hpair hoactive
        omega
      · obtain ⟨hlt, hmade', -⟩ := inPlace_spans hssa hpair hx
        omega

theorem stored_start (hrun : CallerRun g actual tr) : Stored g offsets actual 0 tr := by
  intro x hx hbefore hneeded k hk
  have hin := input_of_span hssa hx hbefore
  obtain ⟨v, hv⟩ := hrun.complete x hin k hk
  refine holds_of_write [] ?_ hv
  intro y j w hwrite haddress
  obtain ⟨hy, hj⟩ := hrun.writes y j w hwrite
  by_cases heq : y = x
  · subst heq
    exact ⟨rfl, address_inj haddress⟩
  · have hxspan := span_input hin
    have hyspan := span_input hy
    have hyend := neg_one_lt_span (g := g) y
    obtain ⟨i', node, hpair | hpair⟩ := inPlace_of_shared hssa haccepted hrange (.inl hy) hx heq (by omega) (by omega) hj hk
      haddress
    · obtain ⟨-, hmade, -⟩ := inPlace_spans hssa hpair (.inl hy)
      omega
    · obtain ⟨-, hmade, -⟩ := inPlace_spans hssa hpair hx
      omega

theorem stored_run {ns : List Node} {trs : List Trace} (hruns : List.Forall₂ (NodeRun g actual) ns trs)
    (hns : g.nodes.drop i = ns) (hstored : Stored g offsets actual i pre) :
    Stored g offsets actual (i + ns.length) (pre ++ trs.flatten) ∧
      ∀ p x k q, trs.flatten = p ++ .read x k :: q → Holds offsets.address (pre ++ p) x k := by
  induction hruns generalizing i pre with
  | nil =>
    refine ⟨by simpa using hstored, ?_⟩
    intro p x k q hsplit
    simp at hsplit
  | @cons n tr ns trs hrun _ ih =>
    have hn : g.nodes[i]? = some n := by rw [← head?_drop, hns, head?_cons]
    have hrest : g.nodes.drop (i + 1) = ns := by rw [← tail_drop, hns, tail_cons]
    have hstep := stored_step hssa haccepted hrange hstored hn hrun
    obtain ⟨hend, hreads⟩ := ih hrest hstep
    rw [flatten_cons]
    refine ⟨?_, ?_⟩
    · rw [length_cons, show i + (ns.length + 1) = i + 1 + ns.length by omega, ← append_assoc]
      exact hend
    · intro p x k q hsplit
      obtain ⟨c, hp, hc⟩ | ⟨c, htr, hc⟩ := append_eq_append_iff.mp hsplit
      · rw [hp, ← append_assoc]
        exact hreads c x k q hc
      · cases c with
        | nil =>
          rw [append_nil] at htr
          rw [← htr]
          have hhead := hreads [] x k q hc.symm
          rwa [append_nil] at hhead
        | cons a c =>
          rw [cons_append, List.cons.injEq] at hc
          exact holds_read hssa haccepted hrange hstored hn hrun (hc.1 ▸ htr)

end

variable {g : Graph} {offsets : Offsets} {arena : Int} {b : Bounds}

theorem run_stored (hssa : g.Ssa) (haccepted : Accepted g offsets arena (tensorsOf g b)) (r : ArenaRun g (tensorsOf g b)) :
    Stored g offsets r.actual g.nodes.length r.trace ∧
      ∀ p x k q, r.nodes.flatten = p ++ .read x k :: q → Holds offsets.address (r.caller ++ p) x k := by
  have hstart := stored_start hssa haccepted r.inRange r.callerRun
  have hrun := stored_run hssa haccepted r.inRange r.nodeRuns drop_zero hstart
  rwa [Nat.zero_add] at hrun

theorem active_access (hssa : g.Ssa) (r : ArenaRun g (tensorsOf g b)) {a : Access String UInt8} (ha : a ∈ r.trace) :
    ∃ x k, Active g x ∧ k < (r.actual x).bytes ∧ (a = .read x k ∨ ∃ v, a = .write x k v) := by
  obtain hcaller | hnodes := mem_append.mp ha
  · cases a with
    | read x k => exact absurd hcaller (r.callerRun.reads x k)
    | write x k v =>
      obtain ⟨hin, hk⟩ := r.callerRun.writes x k v hcaller
      exact ⟨x, k, .inl hin, hk, .inr ⟨v, rfl⟩⟩
  · obtain ⟨tr, htr, hmem⟩ := mem_flatten.mp hnodes
    obtain ⟨i, hi⟩ := mem_iff_getElem?.mp htr
    have hlen : i < g.nodes.length := by
      rw [r.nodeRuns.length_eq]
      exact (List.getElem?_eq_some_iff.mp hi).1
    have hn : g.nodes[i]? = some g.nodes[i] := getElem?_eq_getElem hlen
    have hrun := r.nodeRuns.get hlen (List.getElem?_eq_some_iff.mp hi).1
    rw [get_eq_getElem, get_eq_getElem, (List.getElem?_eq_some_iff.mp hi).2] at hrun
    cases a with
    | read x k =>
      obtain ⟨hin, hne, hinit, hk⟩ := hrun.reads x k hmem
      exact ⟨x, k, active_read hssa hn hin hne hinit, hk, .inl rfl⟩
    | write x k v =>
      obtain ⟨hin, hne, hk⟩ := hrun.writes x k v hmem
      exact ⟨x, k, active_made hn hin hne, hk, .inr ⟨v, rfl⟩⟩

theorem address_in_arena (hssa : g.Ssa) (haccepted : Accepted g offsets arena (tensorsOf g b)) (r : ArenaRun g (tensorsOf g b))
    {x : String} {k : Nat} (hx : Active g x) (hk : k < (r.actual x).bytes) :
    0 ≤ offsets.address x k ∧ offsets.address x k < arena := by
  obtain ⟨t, ht⟩ := (active_iff (b := b) hssa).mpr hx
  have hfits := haccepted.fits x t ht
  obtain ⟨need, hneed, hlarge⟩ := hfits.large
  have hsize := (r.inRange x t ht).2.2 need hneed
  have hlow := hfits.low
  have hhigh := hfits.high
  simp only [Offsets.address]
  omega

/-- A plan that is accepted is right at all sizes in range: every node reads what was written for it, the outputs are
there at the end, no access leaves the arena and tensors share storage in place only. -/
theorem verified_plan_safe (hssa : g.Ssa) (h : verifyPlan g offsets arena (tensorsOf g b) = .ok ())
    (r : ArenaRun g (tensorsOf g b)) : r.Safe offsets arena := by
  have haccepted := accepted_of_verify h
  obtain ⟨hstored, hreads⟩ := run_stored hssa haccepted r
  refine ⟨?_, ?_, ?_, ?_⟩
  · intro a ha
    obtain ⟨x, k, hx, hk, hread | ⟨v, hwrite⟩⟩ := active_access hssa r ha
    · rw [hread]
      exact address_in_arena hssa haccepted r hx hk
    · rw [hwrite]
      exact address_in_arena hssa haccepted r hx hk
  · intro pre x k post hsplit
    obtain ⟨c, hpre, hc⟩ | ⟨c, hcaller, hc⟩ := append_eq_append_iff.mp hsplit
    · rw [hpre]
      exact hreads c x k post hc
    · cases c with
      | nil =>
        rw [append_nil] at hcaller
        have hhead := hreads [] x k post hc.symm
        rwa [append_nil, hcaller] at hhead
      | cons a c =>
        rw [cons_append, List.cons.injEq] at hc
        have hmem : Access.read x k ∈ r.caller := by
          rw [hcaller, hc.1]
          exact mem_append_right _ mem_cons_self
        exact absurd hmem (r.callerRun.reads x k)
  · intro o ho hinit k hk
    have hactive : Active g o := by
      obtain hbad | hin | ⟨m, hm, hmade⟩ := hssa.outputs o ho
      · exact absurd hbad hinit
      · exact .inl (mem_filter.mpr ⟨hin, by simpa using hinit⟩)
      · obtain ⟨i, hi⟩ := mem_iff_getElem?.mp hm
        refine active_made hi hmade ?_
        rintro rfl
        exact hssa.named.2 ho
    have hend := span_output ho
    have hbefore : (span g o).1 < g.nodes.length := by
      obtain hin | ⟨i, m, hi, hmade, hne⟩ := hactive
      · rw [span_input hin]
        omega
      · rw [span_made hssa hi hmade hne]
        exact_mod_cast (List.getElem?_eq_some_iff.mp hi).1
    exact hstored o hactive hbefore hend.ge k hk
  · intro x t y u ht hu hne hxy hyx j hj k hk haddress
    have hx := (active_iff hssa).mp ⟨t, ht⟩
    have hy := (active_iff hssa).mp ⟨u, hu⟩
    obtain ⟨i, node, hpair | hpair⟩ := inPlace_of_shared hssa haccepted r.inRange hx hy hne hxy hyx hj hk haddress
    · exact ⟨node, mem_of_getElem? hpair.node_eq, x, y, .inl ⟨rfl, rfl⟩, hpair.offset_eq, hpair.operand, hpair.output,
        hpair.covers⟩
    · exact ⟨node, mem_of_getElem? hpair.node_eq, y, x, .inr ⟨rfl, rfl⟩, hpair.offset_eq, hpair.operand, hpair.output,
        hpair.covers⟩

/-- A Relu of one or two bytes whose output takes the place of its operand. -/
def reluGraph : Graph := ⟨[⟨"Relu", "", ["x"], ["y"]⟩], [], ["x"], ["y"]⟩

def reluBounds : Bounds := fun _ => (some [⟨1, some 2, none, by simp⟩], ⟨1, some 2⟩)

def reluOffsets : Offsets := ⟨[("x", (0, 2)), ("y", (0, 2))], by decide⟩

theorem relu_ssa : reluGraph.Ssa where
  named := by decide
  once := by
    intro i j n m o hi hj _ _ _
    have hlt := (List.getElem?_eq_some_iff.mp hi).1
    have hlt' := (List.getElem?_eq_some_iff.mp hj).1
    simp only [reluGraph, length_singleton] at hlt hlt'
    omega
  fresh := by decide
  ordered := by
    intro i n x hi hx _
    have hn : n = ⟨"Relu", "", ["x"], ["y"]⟩ := mem_singleton.mp (mem_of_getElem? hi)
    rw [hn] at hx
    exact .inr (.inl hx)
  outputs := by decide

def reluRun : ArenaRun reluGraph (tensorsOf reluGraph reluBounds) where
  actual _ := ⟨[1], 8⟩
  inRange := by
    intro n t ht
    have hentries : activations (tensorsOf reluGraph reluBounds) =
      [("x", ⟨.input, some [⟨1, some 2, none, by simp⟩], ⟨1, some 2⟩⟩),
        ("y", ⟨.output, some [⟨1, some 2, none, by simp⟩], ⟨1, some 2⟩⟩)] := rfl
    rw [hentries, mem_cons, mem_singleton] at ht
    obtain ⟨rfl, rfl⟩ | ⟨rfl, rfl⟩ := ht.imp Prod.mk.inj Prod.mk.inj <;>
    · refine ⟨?_, by decide, by decide⟩
      rintro s ⟨⟩
      exact .cons (by decide) .nil
  caller := [.write "x" 0 7]
  callerRun := by
    refine ⟨by simp, ?_, ?_⟩
    · intro x k v h
      cases mem_singleton.mp h
      decide
    · intro x hx k hk
      obtain rfl : x = "x" := mem_singleton.mp hx
      obtain rfl : k = 0 := Nat.lt_one_iff.mp hk
      exact ⟨7, mem_singleton.mpr rfl⟩
  nodes := [[.read "x" 0, .write "y" 0 7]]
  nodeRuns := by
    refine .cons ⟨?_, ?_, ?_, ?_⟩ .nil
    · intro x k h
      obtain ⟨rfl, rfl⟩ : x = "x" ∧ k = 0 := by simpa using h
      decide
    · intro o k v h
      obtain ⟨rfl, rfl, rfl⟩ : o = "y" ∧ k = 0 ∧ v = 7 := by simpa using h
      decide
    · intro o ho _ k hk
      obtain rfl : o = "y" := mem_singleton.mp ho
      obtain rfl : k = 0 := Nat.lt_one_iff.mp hk
      exact ⟨7, by simp⟩
    · refine ⟨1, Nat.one_pos, ?_⟩
      intro o _ x _ pre k post htr
      cases pre with
      | nil =>
        obtain ⟨hread, -⟩ := List.cons.inj htr
        cases hread
        exact ⟨0, rfl, by simp⟩
      | cons a pre =>
        obtain ⟨-, hrest⟩ := List.cons.inj htr
        cases pre with
        | nil => cases (List.cons.inj hrest).1
        | cons a' pre => simp at hrest

theorem relu_plan_safe : reluRun.Safe reluOffsets 2 := verified_plan_safe relu_ssa rfl reluRun

end Onnxsim.ShapeCost.ArenaRuns
