import Onnxsim.Bitwise.Meaning

namespace Onnxsim.Bitwise.Splitting

open List Option Decomposition Meaning
open Lib.Dataflow Lib.FreshNames
open Proto.Graphs

/-- An XOR taken apart, with the names of its two intermediate tensors. -/
structure Split where
  node : Node
  a : String
  b : String
  out : String
  orName : String
  andName : String

namespace Split

variable (k : Split)

def orNode : Node := Decomposition.orNode k.node k.a k.b k.out k.orName

def andNode : Node := Decomposition.andNode k.node k.a k.b k.out k.andName

def subNode : Node := Decomposition.subNode k.node k.out k.orName k.andName

def names : List String := [k.orName, k.andName]

def derived : List (String × String) := [(k.orName, k.a), (k.andName, k.b)]

end Split

/-- The nodes before the pass, those after it, and the XORs that it took apart. -/
inductive Splits (types : Types) : List Node → List Node → List Split → Prop where
  | nil : Splits types [] [] []
  | keep {n : Node} {ns ms : List Node} {ks : List Split} : ¬ Rewritable types n → Splits types ns ms ks →
      Splits types (n :: ns) (n :: ms) ks
  | split {k : Split} {ns ms : List Node} {ks : List Split} : Rewritable types k.node →
      k.node.input = [k.a, k.b] → k.node.output = [k.out] → k.out ≠ "" → Splits types ns ms ks →
      Splits types (k.node :: ns) (k.orNode :: k.andNode :: k.subNode :: ms) (k :: ks)

variable {n m : Node} {types : Types}

theorem operands_of_rewritable (h : Rewritable types n) : ∃ a b out, n.input = [a, b] ∧ n.output = [out] := by
  obtain ⟨-, -, hin, hout, -⟩ := h
  obtain ⟨a, b, hab⟩ := length_eq_two.mp hin
  obtain ⟨out, ho⟩ := length_eq_one_iff.mp hout
  exact ⟨a, b, out, hab, ho⟩

theorem rewriteNodes_keep (ns : List Node) (s : Naming) (h : ¬ Rewritable types n) :
    rewriteNodes types (n :: ns) s = (rewriteNodes types ns s).map fun rest => (n :: rest.1, rest.2) := by
  rw [rewriteNodes, if_neg h]
  cases rewriteNodes types ns s <;> rfl

/-- The XOR at the head of the nodes, under the names that it gets. -/
def headSplit (n : Node) (a b out : String) (s : Naming) : Split :=
  let o := fresh (baseName n out ++ "_bor") s
  ⟨n, a, b, out, o.1, (fresh (baseName n out ++ "_band") o.2).1⟩

def afterSplit (n : Node) (out : String) (s : Naming) : Naming :=
  (fresh (baseName n out ++ "_band") (fresh (baseName n out ++ "_bor") s).2).2

theorem rewriteNodes_split (ns : List Node) (s : Naming) (h : Rewritable types n) {a b out : String}
    (hin : n.input = [a, b]) (hout : n.output = [out]) :
    rewriteNodes types (n :: ns) s = if out = "" then none else
      (rewriteNodes types ns (afterSplit n out s)).map fun rest =>
        ((headSplit n a b out s).orNode :: (headSplit n a b out s).andNode :: (headSplit n a b out s).subNode :: rest.1,
          (headSplit n a b out s).derived ++ rest.2) := by
  rw [rewriteNodes, if_pos h, hin, hout]
  dsimp only
  split
  · rfl
  · change Option.bind (rewriteNodes types ns (afterSplit n out s)) _ = _
    cases rewriteNodes types ns (afterSplit n out s) <;> rfl

theorem rewriteNodes_isSome (ns : List Node) (s : Naming) :
    (rewriteNodes types ns s).isSome ↔ ∀ n ∈ ns, Rewritable types n → "" ∉ n.output := by
  induction ns generalizing s with
  | nil => simp [rewriteNodes]
  | cons n ns ih =>
    rw [forall_mem_cons]
    by_cases h : Rewritable types n
    · obtain ⟨a, b, out, hin, hout⟩ := operands_of_rewritable h
      rw [rewriteNodes_split ns s h hin hout, hout]
      by_cases ho : out = ""
      · simp [ho, h]
      · rw [if_neg ho, isSome_map, ih]
        simp [h, Ne.symm ho]
    · rw [rewriteNodes_keep ns s h, isSome_map, ih]
      simp [h]

theorem splits_of_rewriteNodes {ns : List Node} {s : Naming} {new : List Node × List (String × String)}
    (h : rewriteNodes types ns s = some new) :
    ∃ ks, Splits types ns new.1 ks ∧ new.2 = ks.flatMap Split.derived ∧ (ks.flatMap Split.names).Nodup ∧
      ∀ x ∈ ks.flatMap Split.names, x ∉ s.used ∧ x ≠ "" := by
  induction ns generalizing s new with
  | nil =>
    cases h
    exact ⟨[], .nil, rfl, nodup_nil, by simp⟩
  | cons n ns ih =>
    by_cases hr : Rewritable types n
    · obtain ⟨a, b, out, hin, hout⟩ := operands_of_rewritable hr
      rw [rewriteNodes_split ns s hr hin hout] at h
      split at h
      · cases h
      · next ho =>
        obtain ⟨rest, hrest, rfl⟩ := map_eq_some_iff.mp h
        obtain ⟨ks, hks, hderived, hnodup, hfresh⟩ := ih hrest
        obtain ⟨hor, hor0, horUsed⟩ := fresh_spec (baseName n out ++ "_bor") s
        obtain ⟨hand, hand0, handUsed⟩ :=
          fresh_spec (baseName n out ++ "_band") (fresh (baseName n out ++ "_bor") s).2
        have hafter : (afterSplit n out s).used =
            (headSplit n a b out s).andName :: (headSplit n a b out s).orName :: s.used := by
          rw [afterSplit, handUsed, horUsed]
          rfl
        rw [horUsed, mem_cons, not_or] at hand
        rw [hafter] at hfresh
        refine ⟨headSplit n a b out s :: ks, .split (k := headSplit n a b out s) hr hin hout ho hks, ?_, ?_, ?_⟩
        · rw [flatMap_cons, hderived]
        · rw [flatMap_cons]
          apply nodup_append.mpr
          refine ⟨?_, hnodup, ?_⟩
          · rw [Split.names, nodup_cons, mem_singleton]
            exact ⟨fun he => hand.1 he.symm, nodup_singleton _⟩
          · intro x hx y hy hxy
            have hnot := (hfresh y hy).1
            rw [Split.names, mem_cons, mem_singleton] at hx
            rw [← hxy] at hnot
            apply hnot
            rcases hx with rfl | rfl <;> simp
        · intro x hx
          rw [flatMap_cons, mem_append] at hx
          rcases hx with hx | hx
          · rw [Split.names, mem_cons, mem_singleton] at hx
            rcases hx with rfl | rfl
            · exact ⟨hor, hor0⟩
            · exact ⟨hand.2, hand0⟩
          · obtain ⟨hnot, hne⟩ := hfresh x hx
            refine ⟨fun hmem => hnot ?_, hne⟩
            exact mem_cons_of_mem _ (mem_cons_of_mem _ hmem)
    · rw [rewriteNodes_keep ns s hr] at h
      obtain ⟨rest, hrest, rfl⟩ := map_eq_some_iff.mp h
      obtain ⟨ks, hks, hderived, hnodup, hfresh⟩ := ih hrest
      exact ⟨ks, .keep hr hks, hderived, hnodup, hfresh⟩

variable {ns ms : List Node} {ks : List Split}

theorem Splits.mem_split (h : Splits types ns ms ks) {k : Split} (hk : k ∈ ks) :
    k.node ∈ ns ∧ Rewritable types k.node ∧ k.node.input = [k.a, k.b] ∧ k.node.output = [k.out] ∧ k.out ≠ "" ∧
      k.orNode ∈ ms ∧ k.andNode ∈ ms ∧ k.subNode ∈ ms := by
  induction h with
  | nil => cases hk
  | keep _ _ ih =>
    obtain ⟨hmem, hr, hin, hout, hne, hor, hand, hsub⟩ := ih hk
    exact ⟨mem_cons_of_mem _ hmem, hr, hin, hout, hne, mem_cons_of_mem _ hor,
      mem_cons_of_mem _ hand, mem_cons_of_mem _ hsub⟩
  | split hr hin hout hne _ ih =>
    rcases mem_cons.mp hk with rfl | hk
    · exact ⟨by simp, hr, hin, hout, hne, by simp, by simp, by simp⟩
    · obtain ⟨hmem, hr, hin, hout, hne, hor, hand, hsub⟩ := ih hk
      exact ⟨by simp [hmem], hr, hin, hout, hne, by simp [hor], by simp [hand], by simp [hsub]⟩

theorem Splits.exists_split (h : Splits types ns ms ks) (hn : n ∈ ns) (hr : Rewritable types n) :
    ∃ k ∈ ks, k.node = n := by
  induction h with
  | nil => cases hn
  | keep hkeep _ ih =>
    rcases mem_cons.mp hn with rfl | hn
    · exact absurd hr hkeep
    · exact ih hn
  | @split k _ _ _ _ _ _ _ _ ih =>
    rcases mem_cons.mp hn with rfl | hn
    · exact ⟨k, mem_cons_self, rfl⟩
    · obtain ⟨k', hk', heq⟩ := ih hn
      exact ⟨k', mem_cons_of_mem _ hk', heq⟩

theorem Splits.mem_after (h : Splits types ns ms ks) (hm : m ∈ ms) :
    m ∈ ns ∨ ∃ k ∈ ks, m = k.orNode ∨ m = k.andNode ∨ m = k.subNode := by
  induction h with
  | nil => cases hm
  | keep _ _ ih =>
    rcases mem_cons.mp hm with rfl | hm
    · exact .inl mem_cons_self
    · exact (ih hm).imp_left (mem_cons_of_mem _)
  | @split k ns ms ks _ _ _ _ _ ih =>
    have hhere : m = k.orNode ∨ m = k.andNode ∨ m = k.subNode ∨ m ∈ ms := by simpa using hm
    rcases hhere with rfl | rfl | rfl | hm
    · exact .inr ⟨k, mem_cons_self, .inl rfl⟩
    · exact .inr ⟨k, mem_cons_self, .inr (.inl rfl)⟩
    · exact .inr ⟨k, mem_cons_self, .inr (.inr rfl)⟩
    · apply (ih hm).imp (mem_cons_of_mem _)
      rintro ⟨k', hk', hcases⟩
      exact ⟨k', mem_cons_of_mem _ hk', hcases⟩

variable {O : Type} (rt : Runtime O)

theorem mem_reads_of_same (hattrs : m.attrs = []) (hin : n.input = m.input) {x : String} (hx : x ∈ m.reads) :
    x ∈ n.reads := by
  obtain ⟨hmem, hne⟩ := Node.mem_input_of_reads (by rw [hattrs, freeAttrs]) hx
  exact Node.mem_reads_of_input (by rwa [hin]) hne

def intros (ks : List Split) : List Node := ks.flatMap fun k => [k.orNode, k.andNode]

theorem Splits.expands (h : Splits types ns ms ks) (hne : ∀ x ∈ ks.flatMap Split.names, x ≠ "") :
    Expands (behaviour rt) ns ms (intros ks) := by
  induction h with
  | nil => exact .nil
  | keep _ _ ih => exact (ih hne).keep
  | @split k ns ms ks _ hin hout _ _ ih =>
    have hor : k.orName ≠ "" := hne k.orName (by simp [Split.names])
    have hand : k.andName ≠ "" := hne k.andName (by simp [Split.names])
    have hwor : written (behaviour rt) k.orNode = [k.orName] := (written_eq rt _).trans (nonempty_singleton hor)
    have hwand : written (behaviour rt) k.andNode = [k.andName] := (written_eq rt _).trans (nonempty_singleton hand)
    have hrep : Replaces (behaviour rt) k.node [k.orNode, k.andNode] k.subNode := by
      refine ⟨?_, ?_, ?_⟩
      · intro i hi x hx
        rw [mem_cons, mem_singleton] at hi
        rcases hi with rfl | rfl
        · exact mem_reads_of_same rfl hin hx
        · exact mem_reads_of_same rfl hin hx
      · intro x hx
        have hmem : x ∈ [k.orName, k.andName] := (Node.mem_input_of_reads rfl hx).1
        right
        simpa [hwor, hwand] using hmem
      · exact congrArg Onnxsim.Fold.Semantics.slots hout.symm
    exact .cons hrep (ih fun x hx => hne x (by rw [flatMap_cons]; exact mem_append_right _ hx))

end Onnxsim.Bitwise.Splitting
