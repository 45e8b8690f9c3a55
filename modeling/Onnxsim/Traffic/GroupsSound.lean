import Mathlib.Data.Finset.Max
import Mathlib.Data.List.MinMax
import Onnxsim.Traffic.Groups

namespace Onnxsim.Traffic.GroupsSound

open List Lib.Classes Groups Relation

section

variable {g : Graph} {a b i p : Nat} {x : String}

theorem lt_of_mem_input (h : x ∈ g.input i) : i < g.nodes.length := by
  by_contra hi
  simp [Graph.input, getElem?_eq_none (Nat.not_lt.mp hi)] at h

theorem mem_consumers : i ∈ g.consumers x ↔ x ≠ "" ∧ x ∈ g.input i := by
  rw [Graph.consumers]
  split
  · next hx => simp [hx]
  · next hx =>
    simp only [mem_flatMap, List.mem_map, mem_filter, decide_eq_true_eq, Graph.indices, mem_range]
    constructor
    · rintro ⟨j, -, y, ⟨hy, rfl⟩, rfl⟩
      exact ⟨hx, hy⟩
    · rintro ⟨-, h⟩
      exact ⟨i, lt_of_mem_input h, x, ⟨h, rfl⟩, rfl⟩

theorem of_producer (h : g.producer x = some p) : x ≠ "" ∧ x ∈ g.output p := by
  rw [Graph.producer] at h
  split at h
  · cases h
  · next hx => exact ⟨hx, by simpa using find?_some h⟩

theorem reads_of_producer (h : g.producer x = some p) (hx : x ∈ g.input i) : g.Reads p i :=
  ⟨x, (of_producer h).2, (of_producer h).1, .inl hx⟩

theorem reads_of_consumer (h : i ∈ g.consumers (g.firstOutput p)) : g.Reads p i := by
  obtain ⟨hne, hx⟩ := mem_consumers.mp h
  refine ⟨_, ?_, hne, .inl hx⟩
  rw [Graph.firstOutput] at hne ⊢
  rw [Graph.output]
  cases hp : g.nodes[p]? with
  | none => simp [hp] at hne
  | some n => simp [Node.output]

theorem Graph.Reads.lt (h : g.Reads a b) : a < g.nodes.length ∧ b < g.nodes.length := by
  obtain ⟨y, hy, -, hread⟩ := h
  constructor
  · by_contra ha
    simp [Graph.output, getElem?_eq_none (Nat.not_lt.mp ha)] at hy
  · by_contra hb
    simp [Graph.input, Graph.captured, getElem?_eq_none (Nat.not_lt.mp hb)] at hread

theorem head_mem_input (h : (g.input i).headD "" ≠ "") : (g.input i).headD "" ∈ g.input i := by
  cases hin : g.input i with
  | nil => exact absurd (by rw [hin]; rfl) h
  | cons y ys => exact mem_cons_self

def Tied (g : Graph) (members : List Nat) : Nat → Nat → Prop :=
  EqvGen fun a b => g.Reads a b ∧ a ∈ members ∧ b ∈ members

variable {members : List Nat}

theorem Tied.mono {members' : List Nat} (h : Tied g members a b) (hsub : members ⊆ members') :
    Tied g members' a b :=
  EqvGen.mono (fun _ _ h => ⟨h.1, hsub h.2.1, hsub h.2.2⟩) _ _ h

theorem Tied.reader (h : g.Reads a b) (ha : a ∈ members) (hb : b ∈ members) : Tied g members a b :=
  .rel _ _ ⟨h, ha, hb⟩

theorem Tied.lt (h : Tied g members a b) (hne : a ≠ b) : a < g.nodes.length ∧ b < g.nodes.length := by
  induction h with
  | rel a b h => exact Graph.Reads.lt h.1
  | refl a => exact absurd rfl hne
  | symm a b _ ih => exact (ih (Ne.symm hne)).symm
  | trans a b c _ _ hab hbc =>
    by_cases heq : a = b
    · exact heq ▸ hbc (heq ▸ hne)
    · by_cases heq' : b = c
      · exact heq' ▸ hab heq
      · exact ⟨(hab heq).1, (hbc heq').2⟩

theorem tied_readers {readers : List Nat} (h : ∀ i ∈ readers, g.Reads p i) :
    ∀ m ∈ p :: readers, Tied g (p :: readers) m p := by
  intro m hm
  rcases mem_cons.mp hm with rfl | hm'
  · exact .refl _
  · exact .symm _ _ (Tied.reader (h m hm') mem_cons_self hm)

theorem tied_single (h : g.Reads p i) : ∀ m ∈ [p, i], Tied g [p, i] m p :=
  tied_readers fun _ hj => mem_singleton.mp hj ▸ h

end

variable {name : String}

section

variable {g : Graph} {q : Nat}

theorem mem_input_of_feeds {kind : Nat → Bool} {p : Nat} {x : String} (h : feeds g kind p = [x]) : x ∈ g.input p :=
  (mem_filter.mp (h ▸ mem_cons_self : x ∈ feeds g kind p)).1

variable {fuel s : Nat} {members : List Nat}

theorem flashWalk_tied {chain : List Nat} {m1 : Nat} {chain' : List Nat}
    (h : flashWalk g fuel chain name = some (m1, chain')) (hq : name ∈ g.input q) :
    ∃ more, chain' = chain ++ more ∧ ∀ m ∈ m1 :: more, Tied g (q :: m1 :: more) m q := by
  induction fuel generalizing chain name q with
  | zero => cases h
  | succ fuel ih =>
    rw [flashWalk] at h
    split at h
    · cases h
    next p hp =>
    have hread := reads_of_producer hp hq
    split at h
    · cases h
    split at h
    · cases h
      refine ⟨[], (append_nil _).symm, fun m hm => ?_⟩
      rw [mem_singleton.mp hm]
      exact .reader hread (by simp) (by simp)
    split at h
    · cases h
    split at h
    · next x hx =>
      obtain ⟨more, rfl, htied⟩ := ih h (mem_input_of_feeds hx)
      refine ⟨p :: more, by simp, ?_⟩
      have hp' : Tied g (q :: m1 :: p :: more) p q := .reader hread (by simp) (by simp)
      have hsub : p :: m1 :: more ⊆ q :: m1 :: p :: more := by
        intro y hy
        simp only [mem_cons] at hy ⊢
        tauto
      intro m hm
      by_cases hmp : m = p
      · exact hmp ▸ hp'
      · have hm' : m ∈ m1 :: more := by
          simp only [mem_cons] at hm ⊢
          tauto
        exact .trans _ _ _ ((htied m hm').mono hsub) hp'
    · cases h

theorem prologue_tied (hq : name ∈ g.input q) :
    ∀ m ∈ prologue g fuel name, Tied g (q :: prologue g fuel name) m q := by
  induction fuel generalizing name q with
  | zero => simp [prologue]
  | succ fuel ih =>
    rw [prologue]
    split
    · simp
    next p hp =>
    have hread := reads_of_producer hp hq
    split
    · simp
    split
    · next x hx =>
      have hp' : Tied g (q :: p :: prologue g fuel x) p q := .reader hread (by simp) (by simp)
      intro m hm
      rcases mem_cons.mp hm with rfl | hm
      · exact hp'
      · exact .trans _ _ _ ((ih (mem_input_of_feeds hx) m hm).mono (subset_cons_self _ _)) hp'
    · intro m hm
      rw [mem_singleton.mp hm]
      exact .reader hread (by simp) (by simp)

theorem flashMembers_tied (h : flashMembers g s = some members) :
    members ≠ [] ∧ (∀ m ∈ members, Tied g members m (members.headD 0)) ∧ s ∈ members ∧ ∃ m2, g.Reads s m2 := by
  rw [flashMembers] at h
  split at h
  · cases h
  next hs =>
  split at h
  · next m2 hm2 =>
    split at h
    · cases h
    split at h
    · next m1 chain hwalk =>
      split at h
      · cases h
      cases h
      obtain ⟨more, hchain, htied⟩ := flashWalk_tied hwalk (head_mem_input (not_or.mp (not_or.mp hs).2).1)
      rw [nil_append] at hchain
      subst hchain
      have hsub : s :: m1 :: chain ⊆ m1 :: chain ++ [s, m2] := by
        intro y hy
        simp only [mem_cons, mem_append] at hy ⊢
        tauto
      have hhead : Tied g (m1 :: chain ++ [s, m2]) s m1 := .symm _ _ ((htied m1 mem_cons_self).mono hsub)
      have hlast : g.Reads s m2 := reads_of_consumer (hm2 ▸ mem_cons_self)
      refine ⟨by simp, fun m hm => ?_, by simp, m2, hlast⟩
      rcases mem_append.mp hm with hm | hm
      · exact .trans _ _ _ ((htied m hm).mono hsub) hhead
      · rcases mem_cons.mp hm with rfl | hm
        · exact hhead
        · rw [mem_singleton.mp hm]
          exact .trans _ _ _ (.symm _ _ (Tied.reader hlast (by simp) (by simp))) hhead
    · cases h
  · cases h

theorem lt_of_flashMembers {m : Nat} (h : flashMembers g s = some members) (hm : m ∈ members) :
    m < g.nodes.length := by
  obtain ⟨-, htied, hs, m2, hread⟩ := flashMembers_tied h
  by_cases hms : m = s
  · exact hms ▸ (Graph.Reads.lt hread).1
  · exact (Tied.lt (.trans _ _ _ (htied m hm) (.symm _ _ (htied s hs))) hms).1

end

section

variable (g : Graph) (flash : Bool)

def Fused (s : State) (r a b : Nat) : Prop := g.Reads a b ∧ s.find a = r ∧ s.find b = r

/-- What the joins keep: the counters are right, a class of more than one node is marked and has two
matmuls only by an attention kernel, and its nodes are tied together by their reads. -/
structure Inv (s : State) : Prop where
  merged : ∀ i j, s.find i = s.find j → i ≠ j → i ∈ s.merged
  counts : ∀ i, s.matmuls (s.find i) =
    ((Finset.range g.nodes.length).filter fun j => g.isKernelEpilogueProducer j ∧ s.find j = s.find i).card
  few : ∀ i, s.matmuls (s.find i) ≤ 1 ∨ flash = true ∧ s.matmuls (s.find i) ≤ 2 ∧
    ∃ sm members, flashMembers g sm = some members ∧ ∀ m ∈ members, s.find m = s.find i
  linked : ∀ i j, s.find i = s.find j → EqvGen (Fused g s (s.find i)) i j

variable {g flash} {s : State} {members : List Nat}

theorem mem_roots {r : Nat} : r ∈ s.roots members ↔ ∃ m ∈ members, s.find m = r := by
  simp [State.roots]

theorem find_unite (i : Nat) : (s.unite members).find i =
    if s.find i ∈ s.roots members then s.find (members.headD 0) else s.find i := rfl

theorem Inv.total_eq (h : Inv g flash s) : s.total members = ((Finset.range g.nodes.length).filter fun i =>
    g.isKernelEpilogueProducer i ∧ s.find i ∈ s.roots members).card := by
  rw [Finset.card_eq_sum_card_fiberwise (f := s.find) (t := s.roots members)
    (fun i hi => (Finset.mem_filter.mp hi).2.2), State.total]
  refine Finset.sum_congr rfl fun r hr => ?_
  obtain ⟨m, -, rfl⟩ := mem_roots.mp hr
  rw [h.counts m, Finset.filter_filter]
  refine congrArg _ (Finset.filter_congr fun i _ => ?_)
  constructor
  · rintro ⟨hp, hi⟩
    exact ⟨⟨hp, hi ▸ hr⟩, hi⟩
  · rintro ⟨⟨hp, -⟩, hi⟩
    exact ⟨hp, hi⟩

/-- One group for members that are tied together, of which at most one is a matmul, or which an attention kernel has. -/
theorem Inv.unite (h : Inv g flash s) (hne : members ≠ []) (htied : ∀ m ∈ members, Tied g members m (members.headD 0))
    (hfew : s.total members ≤ 1 ∨ flash = true ∧ s.total members ≤ 2 ∧ ∃ sm, flashMembers g sm = some members) :
    Inv g flash (s.unite members) := by
  have hhead : members.headD 0 ∈ members := by
    cases members with
    | nil => exact absurd rfl hne
    | cons m ms => exact mem_cons_self
  have hroot : s.find (members.headD 0) ∈ s.roots members := mem_roots.mpr ⟨_, hhead, rfl⟩
  have hpos : ∀ {i}, s.find i ∈ s.roots members →
      (s.unite members).find i = s.find (members.headD 0) := fun hi => if_pos hi
  have hneg : ∀ {i}, s.find i ∉ s.roots members → (s.unite members).find i = s.find i :=
    fun hi => if_neg hi
  have hmem : ∀ m ∈ members, (s.unite members).find m = s.find (members.headD 0) :=
    fun m hm => hpos (mem_roots.mpr ⟨m, hm, rfl⟩)
  have hself : (s.unite members).matmuls (s.find (members.headD 0)) = s.total members := Function.update_self _ _ _
  have hother : ∀ {r}, r ≠ s.find (members.headD 0) → (s.unite members).matmuls r = s.matmuls r :=
    fun hr => Function.update_of_ne hr _ _
  have hlink : ∀ {i j}, s.find i = s.find j → EqvGen (Fused g (s.unite members) ((s.unite members).find i)) i j :=
    fun {i j} hij => EqvGen.mono (fun a b hab => ⟨hab.1, by rw [find_unite, find_unite, hab.2.1],
      by rw [find_unite, find_unite, hab.2.2]⟩) _ _ (h.linked i j hij)
  have hjoin : ∀ {i}, s.find i ∈ s.roots members → EqvGen (Fused g (s.unite members) (s.find (members.headD 0)))
      i (members.headD 0) := by
    intro i hi
    obtain ⟨m, hm, hfind⟩ := mem_roots.mp hi
    exact .trans _ _ _ (hpos hi ▸ hlink hfind.symm)
      (EqvGen.mono (fun a b hab => ⟨hab.1, hmem a hab.2.1, hmem b hab.2.2⟩) _ _ (htied m hm))
  have hout : ∀ {i}, s.find i ∉ s.roots members → s.find i ≠ s.find (members.headD 0) := fun hi heq => hi (heq ▸ hroot)
  refine ⟨fun i j hij hne => ?_, fun i => ?_, fun i => ?_, fun i j hij => ?_⟩
  · by_cases hi : s.find i ∈ s.roots members
    · obtain ⟨m, hm, hfind⟩ := mem_roots.mp hi
      by_cases him : i = m
      · exact mem_append_right _ (him ▸ hm)
      · exact mem_append_left _ (h.merged i m hfind.symm him)
    · by_cases hj : s.find j ∈ s.roots members
      · rw [hneg hi, hpos hj] at hij
        exact absurd hij (hout hi)
      · rw [hneg hi, hneg hj] at hij
        exact mem_append_left _ (h.merged i j hij hne)
  · by_cases hi : s.find i ∈ s.roots members
    · rw [hpos hi, hself, h.total_eq]
      refine congrArg _ (Finset.filter_congr fun j _ => and_congr_right fun _ => ⟨hpos, fun hj => ?_⟩)
      by_contra hnot
      exact hout hnot ((hneg hnot).symm.trans hj)
    · rw [hneg hi, hother (hout hi), h.counts i]
      refine congrArg _ (Finset.filter_congr fun j _ => and_congr_right fun _ => ⟨fun hj => ?_, fun hj => ?_⟩)
      · exact (hneg (hj ▸ hi)).trans hj
      · by_cases hin : s.find j ∈ s.roots members
        · exact absurd (hj.symm.trans (hpos hin)) (hout hi)
        · exact (hneg hin).symm.trans hj
  · by_cases hi : s.find i ∈ s.roots members
    · rw [hpos hi, hself]
      exact hfew.imp_right fun ⟨hflash, htwo, sm, hsm⟩ => ⟨hflash, htwo, sm, members, hsm, hmem⟩
    · rw [hneg hi, hother (hout hi)]
      exact (h.few i).imp_right fun ⟨hflash, htwo, sm, ms, hsm, hms⟩ =>
        ⟨hflash, htwo, sm, ms, hsm, fun m hm => (hneg (hms m hm ▸ hi)).trans (hms m hm)⟩
  · by_cases hi : s.find i ∈ s.roots members
    · by_cases hj : s.find j ∈ s.roots members
      · rw [hpos hi]
        exact .trans _ _ _ (hjoin hi) (.symm _ _ (hjoin hj))
      · rw [hpos hi, hneg hj] at hij
        exact absurd hij.symm (hout hj)
    · by_cases hj : s.find j ∈ s.roots members
      · rw [hneg hi, hpos hj] at hij
        exact absurd hij (hout hi)
      · rw [hneg hi, hneg hj] at hij
        exact hlink hij

end

variable {g : Graph} {flash : Bool} {s : State} {i p : Nat} {ms : List Nat}

theorem Inv.marked (h : Inv g flash s) (ms : List Nat) : Inv g flash { s with merged := s.merged ++ ms } :=
  ⟨fun i j hij hne => mem_append_left _ (h.merged i j hij hne), h.counts, h.few, h.linked⟩

theorem Inv.join (h : Inv g flash s) (htied : ∀ m ∈ p :: ms, Tied g (p :: ms) m p) : Inv g flash (s.join (p :: ms)) := by
  rw [State.join]
  split
  · exact h
  · next htotal => exact h.unite (cons_ne_nil _ _) htied (.inl (Nat.not_lt.mp htotal))

theorem chainInput_inv (h : Inv g flash s) (hname : name ∈ g.input i) : Inv g flash (chainInput g i s name) := by
  rw [chainInput]
  split
  · exact h
  next p hp =>
  split
  · exact h
  split
  · have htied := tied_single (reads_of_producer hp hname)
    by_cases htotal : 1 < s.total [p, i]
    · rw [State.join, if_pos htotal]
      exact h.marked [p, i]
    · rw [State.join, if_neg htotal]
      exact h.unite (cons_ne_nil _ _) htied (.inl (Nat.not_lt.mp htotal))
  · exact h

theorem chainNode_inv (h : Inv g flash s) : Inv g flash (chainNode g s i) := by
  rw [chainNode]
  split
  · exact List.foldlRecOn _ _ h fun s hs name hname => chainInput_inv hs hname
  · exact h

theorem joinReaders_inv (h : Inv g flash s) (kind : Nat → Bool) : Inv g flash (joinReaders g kind s p) := by
  dsimp only [joinReaders]
  split
  · exact h
  split
  · exact h.join (tied_readers fun c hc => reads_of_consumer hc)
  · exact h

theorem viewNode_inv (h : Inv g flash s) : Inv g flash (viewNode g s i) := by
  dsimp only [viewNode]
  split
  · exact h
  split
  · exact h
  split
  · exact h.join (tied_readers fun c hc => reads_of_consumer hc)
  split
  · next r hr =>
    split
    · exact h.join (tied_readers fun c hc => reads_of_consumer (hr ▸ hc))
    · exact h
  · exact h

theorem epilogueNode_inv (h : Inv g flash s) (viewMode : Bool) : Inv g flash (epilogueNode g viewMode s i) := by
  rw [epilogueNode]
  split
  · exact h
  · exact joinReaders_inv h _

theorem flashNode_inv (h : Inv g true s) : Inv g true (flashNode g s i) := by
  rw [flashNode]
  split
  · exact h
  next members hmembers =>
  obtain ⟨hne, htied, -⟩ := flashMembers_tied hmembers
  split
  · exact h
  · next htotal => exact h.unite hne htied (.inr ⟨rfl, Nat.not_lt.mp htotal, i, hmembers⟩)

theorem reduceNode_inv (h : Inv g flash s) : Inv g flash (reduceNode g s i) := by
  dsimp only [reduceNode]
  split
  · exact h
  next hi =>
  refine joinReaders_inv ?_ _
  split
  · exact h
  · refine h.join fun m hm => ?_
    rcases mem_cons.mp hm with rfl | hm
    · exact .refl _
    · exact prologue_tied (head_mem_input (not_or.mp (not_or.mp hi).2).1) m hm

theorem initial_inv (g : Graph) (flash : Bool) : Inv g flash (initial g) where
  merged _ _ hij hne := absurd hij hne
  counts r := by
    have hrange : g.isKernelEpilogueProducer r = true → r ∈ Finset.range g.nodes.length := by
      intro hr
      by_contra hout
      rw [Finset.mem_range, Nat.not_lt] at hout
      simp [Graph.isKernelEpilogueProducer, Graph.isOp, getElem?_eq_none hout] at hr
    have hfilter : ((Finset.range g.nodes.length).filter fun i => g.isKernelEpilogueProducer i ∧ i = r) =
        if g.isKernelEpilogueProducer r then {r} else ∅ := by
      ext i
      split <;> simp only [Finset.mem_filter, Finset.mem_singleton, Finset.notMem_empty] <;> grind
    refine Eq.trans ?_ (congrArg Finset.card hfilter).symm
    change (if g.isKernelEpilogueProducer r then 1 else 0) = _
    split <;> rfl
  few r := by
    change (if g.isKernelEpilogueProducer r then 1 else 0) ≤ 1 ∨ _
    split
    · exact .inl (Nat.le_refl 1)
    · exact .inl (Nat.zero_le 1)
  linked i j hij := by
    have hsame : i = j := hij
    exact hsame ▸ .refl i

theorem joined_inv (g : Graph) (viewMode flash reduce : Bool) : Inv g flash (joined g viewMode flash reduce) := by
  have hchain : Inv g flash (g.indices.foldl (chainNode g) (initial g)) :=
    List.foldlRecOn _ _ (initial_inv g flash) fun s hs _ _ => chainNode_inv hs
  have hview : Inv g flash (if viewMode then g.indices.foldl (viewNode g) (g.indices.foldl (chainNode g) (initial g))
      else g.indices.foldl (chainNode g) (initial g)) := by
    split
    · exact List.foldlRecOn _ _ hchain fun s hs _ _ => viewNode_inv hs
    · exact hchain
  have hepilogue := List.foldlRecOn g.indices (epilogueNode g viewMode) hview fun s hs _ _ => epilogueNode_inv hs viewMode
  have hreduce : ∀ s, Inv g flash s → Inv g flash (if reduce then g.indices.foldl (reduceNode g) s else s) := by
    intro s hs
    split
    · exact List.foldlRecOn _ _ hs fun s hs _ _ => reduceNode_inv hs
    · exact hs
  cases flash with
  | false => exact hreduce _ hepilogue
  | true => exact hreduce _ (List.foldlRecOn _ _ hepilogue fun s hs _ _ => flashNode_inv hs)

variable {j : Nat}

theorem Inv.key_eq_iff (h : Inv g flash s) : groupKey g s i = groupKey g s j ↔ s.find i = s.find j := by
  have hmarked : ∀ {i j}, s.find i = s.find j → i ≠ j → g.isKernelElementwise i = true ∨ i ∈ s.merged :=
    fun hij hne => .inr (h.merged _ _ hij hne)
  rw [groupKey, groupKey]
  by_cases hij : i = j
  · subst hij
    simp
  · split
    · split
      · exact Int.natCast_inj
      · next hj => exact ⟨fun heq => by omega, fun heq => absurd (hmarked heq.symm (Ne.symm hij)) hj⟩
    · next hi =>
      refine ⟨fun heq => ?_, fun heq => absurd (hmarked heq hij) hi⟩
      split at heq <;> omega

variable {G H : List Nat} {a b x : Nat}

theorem mem_groupsOf (hG : G ∈ groupsOf g s) (ha : a ∈ G) :
    G = g.indices.filter fun i => groupKey g s i = groupKey g s a := by
  obtain ⟨k, -, rfl⟩ := List.mem_map.mp hG
  rw [← of_decide_eq_true (mem_filter.mp ha).2]

theorem mem_group_iff (hs : Inv g flash s) (hG : G ∈ groupsOf g s) (ha : a ∈ G) :
    b ∈ G ↔ b < g.nodes.length ∧ s.find b = s.find a := by
  rw [mem_groupsOf hG ha, mem_filter, Graph.indices, mem_range, decide_eq_true_eq, hs.key_eq_iff]

theorem groupsOf_perm : (groupsOf g s).flatten.Perm g.indices := by
  have hnodup : g.indices.Nodup := nodup_range
  refine (perm_ext_iff_of_nodup (nodup_flatten.mpr ⟨fun G hG => ?_, ?_⟩) hnodup).mpr fun i => ?_
  · obtain ⟨k, -, rfl⟩ := List.mem_map.mp hG
    exact hnodup.filter _
  · refine pairwise_map.mpr ((nodup_reverse.mpr (nodup_dedup _)).imp fun hne i hi hi' => hne ?_)
    exact (of_decide_eq_true (mem_filter.mp hi).2).symm.trans (of_decide_eq_true (mem_filter.mp hi').2)
  · rw [mem_flatten]
    constructor
    · rintro ⟨G, hG, hi⟩
      obtain ⟨k, -, rfl⟩ := List.mem_map.mp hG
      exact mem_of_mem_filter hi
    · intro hi
      refine ⟨_, List.mem_map.mpr ⟨_, ?_, rfl⟩, mem_filter.mpr ⟨hi, decide_eq_true rfl⟩⟩
      simpa using ⟨i, hi, rfl⟩

theorem matmulsOf_eq (hs : Inv g flash s) (hG : G ∈ groupsOf g s) (ha : a ∈ G) :
    matmulsOf g G = s.matmuls (s.find a) := by
  rw [hs.counts a, mem_groupsOf hG ha, matmulsOf, countP_filter, countP_eq_length_filter]
  refine congrArg length (filter_congr fun i _ => ?_)
  simp [hs.key_eq_iff]

theorem matmulsOf_le (hs : Inv g flash s) (hG : G ∈ groupsOf g s) :
    matmulsOf g G ≤ 1 ∨ flash = true ∧ matmulsOf g G = 2 ∧ FlashJoined g G := by
  cases hcase : G with
  | nil => exact .inl (Nat.zero_le 1)
  | cons a rest =>
    have ha : a ∈ G := hcase ▸ mem_cons_self
    rw [← hcase, matmulsOf_eq hs hG ha]
    rcases hs.few a with hone | ⟨hflash, htwo, sm, members, hsm, hmembers⟩
    · exact .inl hone
    · by_cases hone : s.matmuls (s.find a) ≤ 1
      · exact .inl hone
      · exact .inr ⟨hflash, by omega, sm, members, hsm,
          fun m hm => (mem_group_iff hs hG ha).mpr ⟨lt_of_flashMembers hsm hm, hmembers m hm⟩⟩

theorem last_of_leaves (hs : Inv g flash s) (hsorted : g.Sorted) (hG : G ∈ groupsOf g s) (hsingle : SingleReader g G)
    (ha : a ∈ G) (hx : x ∉ G) (hread : g.Reads a x) : ∀ b ∈ G, b ≤ a := by
  obtain ⟨m, hm, hmax⟩ := G.toFinset.exists_max_image id ⟨a, mem_toFinset.mpr ha⟩
  simp only [mem_toFinset, id] at hm hmax
  have hmem : ∀ {c d}, Fused g s (s.find a) c d → c ∈ G ∧ d ∈ G := fun hcd =>
    ⟨(mem_group_iff hs hG ha).mpr ⟨(Graph.Reads.lt hcd.1).1, hcd.2.1⟩,
      (mem_group_iff hs hG ha).mpr ⟨(Graph.Reads.lt hcd.1).2, hcd.2.2⟩⟩
  have hpath := reflTransGen_of_eqvGen
    (fun c d e hd he => (hsingle c (hmem hd).1 d (hmem hd).2 hd.1 e he.1).symm)
    (fun c hc => absurd (hsorted _ _ hc.1) (Nat.not_lt.mpr (hmax c (hmem hc).2)))
    (hs.linked a m ((mem_group_iff hs hG ha).mp hm).2.symm)
  rcases hpath.cases_head with rfl | ⟨c, hc, -⟩
  · exact hmax
  · exact absurd (hsingle a ha c (hmem hc).2 hc.1 x hread ▸ (hmem hc).2) hx

theorem convex_of_singleReader (hs : Inv g flash s) (hsorted : g.Sorted) (hG : G ∈ groupsOf g s)
    (hsingle : SingleReader g G) : Convex g G := by
  intro a ha x hx b hb hread hpath
  have hle : x ≤ b := by
    clear hb
    induction hpath with
    | refl => exact Nat.le_refl x
    | tail _ hstep ih => exact Nat.le_of_lt (Nat.lt_of_le_of_lt ih (hsorted _ _ hstep))
  have hlast := last_of_leaves hs hsorted hG hsingle ha hx hread b hb
  exact absurd (hsorted a x hread) (Nat.not_lt.mpr (hle.trans hlast))

theorem schedulable_of_singleReader (hs : Inv g flash s) (hsorted : g.Sorted)
    (hsingle : ∀ G ∈ groupsOf g s, SingleReader g G) : Schedulable g (groupsOf g s) := by
  refine ⟨fun G => G.foldr max 0, fun G hG H hH a ha b hb hread => ?_⟩
  by_cases hbG : b ∈ G
  · exact .inl ((mem_groupsOf hG hbG).trans (mem_groupsOf hH hb).symm)
  · refine .inr (Nat.lt_of_le_of_lt ?_ (Nat.lt_of_lt_of_le (hsorted a b hread) (le_max_of_le hb (Nat.le_refl b))))
    exact max_le_of_forall_le G a (last_of_leaves hs hsorted hG (hsingle G hG) ha hbG hread)

/-- The groups are a partition of the nodes with at most one matmul each, or the two of an attention kernel.
A group in which no fused output has a second reader is convex, and groups that are all so can be executed
one after another. -/
theorem kernelGroups_schedulable (g : Graph) (viewMode flashAttention reductionFusion : Bool) (hsorted : g.Sorted) :
    (kernelGroups g viewMode flashAttention reductionFusion).flatten.Perm g.indices ∧
      (∀ G ∈ kernelGroups g viewMode flashAttention reductionFusion,
        matmulsOf g G ≤ 1 ∨ flashAttention = true ∧ matmulsOf g G = 2 ∧ FlashJoined g G) ∧
      (∀ G ∈ kernelGroups g viewMode flashAttention reductionFusion, SingleReader g G → Convex g G) ∧
      ((∀ G ∈ kernelGroups g viewMode flashAttention reductionFusion, SingleReader g G) →
        Schedulable g (kernelGroups g viewMode flashAttention reductionFusion)) := by
  have hs := joined_inv g viewMode flashAttention reductionFusion
  exact ⟨groupsOf_perm, fun G hG => matmulsOf_le hs hG, fun G hG => convex_of_singleReader hs hsorted hG,
    schedulable_of_singleReader hs hsorted⟩

theorem sorted_of_lt {g : Graph} (h : ∀ a < g.nodes.length, ∀ b < g.nodes.length, g.Reads a b → a < b) : g.Sorted :=
  fun a b hread => h a (Graph.Reads.lt hread).1 b (Graph.Reads.lt hread).2 hread

def attention : Graph where
  nodes := [{ opType := "MatMul", input := ["q", "k"], first := "scores" },
    { opType := "Mul", input := ["scores", "scale"], first := "scaled" },
    { opType := "Softmax", input := ["scaled"], first := "weights" },
    { opType := "MatMul", input := ["weights", "v"], first := "y" }]
  outputs := ["y"]

theorem kernelGroups_schedulable_attention : kernelGroups attention false true false = [[0, 1, 2, 3]] ∧
    Schedulable attention (kernelGroups attention false true false) := by
  have hgroups : kernelGroups attention false true false = [[0, 1, 2, 3]] := by decide +kernel
  refine ⟨hgroups, (kernelGroups_schedulable attention false true false (sorted_of_lt (by decide))).2.2.2 ?_⟩
  rw [hgroups]
  intro G hG a ha b hb hread c hc
  rw [mem_singleton.mp hG] at ha hb
  have hone : ∀ a < 4, ∀ b < 4, attention.Reads a b → ∀ c < 4, attention.Reads a c → c = b := by decide
  exact hone a (Graph.Reads.lt hread).1 b (Graph.Reads.lt hread).2 hread c (Graph.Reads.lt hc).2 hc

def gated : Graph where
  nodes := [{ opType := "MatMul", input := ["x", "w"], first := "h" }, { opType := "Relu", input := ["h"], first := "r" },
    { opType := "Softmax", input := ["r"], first := "p" }, { opType := "Mul", input := ["h", "p"], first := "y" }]
  outputs := ["y"]

/-- Both readers of the MatMul join it, and the Softmax between them stays out. -/
theorem kernelGroups_gated_not_convex : gated.Sorted ∧ ∃ G ∈ kernelGroups gated false false false, ¬ Convex gated G := by
  have hgroups : kernelGroups gated false false false = [[0, 1, 3], [2]] := by decide +kernel
  refine ⟨sorted_of_lt (by decide), [0, 1, 3], by rw [hgroups]; exact mem_cons_self, fun h => ?_⟩
  exact h 1 (by decide) 2 (by decide) 3 (by decide) (by decide) (.single (by decide))

end Onnxsim.Traffic.GroupsSound
