import Mathlib.Data.List.Nodup

namespace Onnxsim.Lib.NodeRuns

open List Option

variable {N X V : Type}

section

variable (reads writes : N → List X)

/-- No node reads what it or a later one writes. -/
def Ordered : List N → Prop
  | [] => True
  | n :: ns => (∀ x ∈ reads n, x ∉ (n :: ns).flatMap writes) ∧ Ordered ns

variable {reads writes} {ns ms : List N} {n : N} {x : X}

theorem ordered_append : Ordered reads writes (ns ++ ms) ↔
    Ordered reads writes ns ∧ Ordered reads writes ms ∧ ∀ n ∈ ns, ∀ x ∈ reads n, x ∉ ms.flatMap writes := by
  induction ns with
  | nil => simp [Ordered]
  | cons n ns ih =>
    simp only [cons_append, Ordered, ih, flatMap_cons, flatMap_append, mem_append, not_or,
      forall_mem_cons]
    constructor
    · rintro ⟨hn, hns, hms, hrest⟩
      exact ⟨⟨fun x hx => ⟨(hn x hx).1, (hn x hx).2.1⟩, hns⟩, hms, fun x hx => (hn x hx).2.2, hrest⟩
    · rintro ⟨⟨hn, hns⟩, hms, hlater, hrest⟩
      exact ⟨fun x hx => ⟨(hn x hx).1, (hn x hx).2, hlater x hx⟩, hns, hms, hrest⟩

theorem Ordered.of_split {l r : List N} (h : Ordered reads writes (l ++ n :: r)) (hx : x ∈ reads n) :
    x ∉ (n :: r).flatMap writes := (ordered_append.mp h).2.1.1 x hx

theorem ordered_map {f : N → N} (hreads : ∀ n ∈ ns, ∀ x ∈ reads (f n), x ∈ reads n ∨ x ∉ ns.flatMap writes)
    (hwrites : ∀ n ∈ ns, writes (f n) = writes n) (h : Ordered reads writes ns) : Ordered reads writes (ns.map f) := by
  have hflat : ∀ ks : List N, (∀ n ∈ ks, writes (f n) = writes n) → (ks.map f).flatMap writes = ks.flatMap writes := by
    intro ks hks
    rw [flatMap_map]
    exact flatMap_congr hks
  have hall : ∀ ks : List N, (∀ n ∈ ks, n ∈ ns) → (∀ y, y ∉ ns.flatMap writes → y ∉ ks.flatMap writes) →
      Ordered reads writes ks → Ordered reads writes (ks.map f) := by
    intro ks
    induction ks with
    | nil => exact fun _ _ _ => trivial
    | cons n ks ih =>
      intro hmem hout hks
      refine ⟨?_, ih (fun m hm => hmem m (mem_cons_of_mem n hm)) ?_ hks.2⟩
      · intro x hx
        have hsame := hflat (n :: ks) fun m hm => hwrites m (hmem m hm)
        rw [map_cons] at hsame
        rw [hsame]
        exact (hreads n (hmem n mem_cons_self) x hx).elim (hks.1 x) (hout x)
      · intro y hy hmem'
        exact hout y hy (by rw [flatMap_cons]; exact mem_append_right _ hmem')
  exact hall ns (fun _ hn => hn) (fun _ hy => hy) h

theorem writer_unique {i j : Nat} {m : N} (h : (ns.flatMap writes).Nodup) (hi : ns[i]? = some n) (hj : ns[j]? = some m)
    (hn : x ∈ writes n) (hm : x ∈ writes m) : i = j := by
  obtain ⟨-, hpair⟩ := nodup_flatMap.mp h
  have hdisj : ∀ {i j : Nat} {n m : N}, ns[i]? = some n → ns[j]? = some m → i < j → x ∈ writes n → x ∉ writes m := by
    intro i j n m hi hj hlt hn hm
    obtain ⟨hi', rfl⟩ := List.getElem?_eq_some_iff.mp hi
    obtain ⟨hj', rfl⟩ := List.getElem?_eq_some_iff.mp hj
    exact pairwise_iff_getElem.mp hpair i j hi' hj' hlt hn hm
  rcases Nat.lt_trichotomy i j with h | h | h
  · exact absurd hm (hdisj hi hj h hn)
  · exact h
  · exact absurd hn (hdisj hj hi h hm)

theorem eq_of_mem_writes {m : N} (h : (ns.flatMap writes).Nodup) (hn : n ∈ ns) (hm : m ∈ ns) (hxn : x ∈ writes n)
    (hxm : x ∈ writes m) : n = m := by
  obtain ⟨i, hi⟩ := mem_iff_getElem?.mp hn
  obtain ⟨j, hj⟩ := mem_iff_getElem?.mp hm
  rw [writer_unique h hi hj hxn hxm, hj] at hi
  exact (Option.some.inj hi).symm

end

/-- The values that nodes read and write, and what a node computes of those that it reads, if it is defined there. -/
structure Behaviour (N X V : Type) where
  reads : N → List X
  writes : N → List X
  eval : N → List (Option V) → Option (List V)

abbrev Env (X V : Type) := X → Option V

variable [DecidableEq X]

def assign (names : List X) (ys : List V) (e : Env X V) : Env X V := fun x => ((names.zip ys).lookup x).or (e x)

variable (b : Behaviour N X V)

def step (n : N) (e : Env X V) : Option (Env X V) :=
  (b.eval n ((b.reads n).map e)).bind fun ys =>
    if ys.length = (b.writes n).length then some (assign (b.writes n) ys e) else none

def run : List N → Env X V → Option (Env X V)
  | [], e => some e
  | n :: ns, e => (step b n e).bind (run ns)

/-- What the node writes is what it computes of what it reads. -/
def Solves (n : N) (s : Env X V) : Prop :=
  ∃ ys, b.eval n ((b.reads n).map s) = some ys ∧ (b.writes n).map s = ys.map some

variable {b} {ns : List N} {n : N} {e s : Env X V} {names : List X} {ys : List V} {x : X}

theorem assign_of_notMem (h : x ∉ names) : assign names ys e x = e x := by
  have hnone : (names.zip ys).lookup x = none := by
    rw [lookup_eq_none_iff]
    intro p hp
    rw [bne_iff_ne]
    rintro rfl
    exact h (of_mem_zip hp).1
  rw [assign, hnone, none_or]

theorem map_assign (hnodup : names.Nodup) (hlen : ys.length = names.length) :
    names.map (assign names ys e) = ys.map some := by
  induction names generalizing ys with
  | nil =>
    obtain rfl := length_eq_zero_iff.mp hlen
    rfl
  | cons o names ih =>
    obtain ⟨y, rest, rfl⟩ := exists_cons_of_length_eq_add_one hlen
    obtain ⟨hnot, hnodup'⟩ := nodup_cons.mp hnodup
    have hhead : assign (o :: names) (y :: rest) e o = some y := by simp [assign]
    have htail : names.map (assign (o :: names) (y :: rest) e) = names.map (assign names rest e) := by
      apply map_congr_left
      intro u hu
      have hne : (u == o) = false := by
        rw [beq_eq_false_iff_ne]
        rintro rfl
        exact hnot hu
      simp [assign, lookup_cons, hne]
    rw [map_cons, map_cons, hhead, htail, ih hnodup' (by simpa using hlen)]

theorem run_of_notMem (h : run b ns e = some s) (hx : x ∉ ns.flatMap b.writes) : s x = e x := by
  induction ns generalizing e with
  | nil =>
    obtain rfl := Option.some.inj h
    rfl
  | cons n ns ih =>
    obtain ⟨e', hstep, hrest⟩ := bind_eq_some_iff.mp h
    rw [flatMap_cons, mem_append, not_or] at hx
    obtain ⟨ys, -, hassign⟩ := bind_eq_some_iff.mp hstep
    split_ifs at hassign
    obtain rfl := Option.some.inj hassign
    rw [ih hrest hx.2, assign_of_notMem hx.1]

omit [DecidableEq X] in
theorem Solves.congr (h : Solves b n e) (hreads : ∀ x ∈ b.reads n, s x = e x) (hwrites : ∀ x ∈ b.writes n, s x = e x) :
    Solves b n s := by
  obtain ⟨ys, heval, hys⟩ := h
  exact ⟨ys, by rw [map_congr_left hreads, heval], by rw [map_congr_left hwrites, hys]⟩

/-- A run that succeeds ends in the environment that solves all nodes and keeps what none of them writes. -/
theorem run_eq_some_iff (hordered : Ordered b.reads b.writes ns) (hnodup : (ns.flatMap b.writes).Nodup) :
    run b ns e = some s ↔ (∀ n ∈ ns, Solves b n s) ∧ ∀ x, x ∉ ns.flatMap b.writes → s x = e x := by
  induction ns generalizing e with
  | nil =>
    constructor
    · intro h
      obtain rfl := Option.some.inj h
      exact ⟨fun n hn => absurd hn not_mem_nil, fun _ _ => rfl⟩
    · intro h
      have heq : e = s := funext fun x => (h.2 x not_mem_nil).symm
      exact congrArg some heq
  | cons n ns ih =>
    rw [flatMap_cons] at hnodup
    obtain ⟨hhead, htail, hdisjoint⟩ := nodup_append.mp hnodup
    have hapart : ∀ x ∈ b.writes n, x ∉ ns.flatMap b.writes := fun x hx hmem => hdisjoint x hx x hmem rfl
    constructor
    · intro h
      obtain ⟨e', hstep, hrest⟩ := bind_eq_some_iff.mp h
      obtain ⟨ys, heval, hassign⟩ := bind_eq_some_iff.mp hstep
      split_ifs at hassign with hlen
      obtain rfl := Option.some.inj hassign
      obtain ⟨hsolves, hkept⟩ := (ih hordered.2 htail).mp hrest
      have hkeep : ∀ x, x ∉ (n :: ns).flatMap b.writes → s x = e x := fun x hx => run_of_notMem h hx
      refine ⟨?_, hkeep⟩
      intro m hm
      obtain rfl | hm := mem_cons.mp hm
      · refine ⟨ys, ?_, ?_⟩
        · rw [map_congr_left fun x hx => hkeep x (hordered.1 x hx), heval]
        · rw [map_congr_left fun x hx => hkept x (hapart x hx), map_assign hhead hlen]
      · exact hsolves m hm
    · rintro ⟨hsolves, hkeep⟩
      obtain ⟨ys, heval, hys⟩ := hsolves n mem_cons_self
      have hlen : ys.length = (b.writes n).length := by
        have hlens := congrArg List.length hys
        rw [length_map, length_map] at hlens
        exact hlens.symm
      have hreads : (b.reads n).map e = (b.reads n).map s :=
        map_congr_left fun x hx => (hkeep x (hordered.1 x hx)).symm
      have hstep : step b n e = some (assign (b.writes n) ys e) := by
        rw [step, hreads, heval, bind_some, if_pos hlen]
      rw [run, hstep, bind_some, ih hordered.2 htail]
      refine ⟨fun m hm => hsolves m (mem_cons_of_mem n hm), ?_⟩
      intro x hx
      by_cases hmem : x ∈ b.writes n
      · have hwritten : (b.writes n).map s = (b.writes n).map (assign (b.writes n) ys e) := by
          rw [hys, map_assign hhead hlen]
        exact map_inj_left.mp hwritten x hmem
      · rw [assign_of_notMem hmem]
        refine hkeep x ?_
        rw [flatMap_cons, mem_append, not_or]
        exact ⟨hmem, hx⟩

end Onnxsim.Lib.NodeRuns
