import Onnxsim.Lib.Results
import Onnxsim.Remote.Executor

namespace Onnxsim.Remote.Consistency

open List Lib.Bytes Lib.Dicts Lib.Results Lib.Runs Requests Executor

section

variable {max : Nat} {order : List ByteString} {cache : Dict ByteString CompiledArtifact}

theorem keys_erase (key : ByteString) : (cache.erase key).keys = cache.keys.filter (· ≠ key) := by
  simp only [Dict.keys, Dict.erase, List.filter_map]
  rfl

variable {key : ByteString}

theorem keys_set (h : key ∉ cache.keys) (a : CompiledArtifact) : (cache.set key a).keys = cache.keys ++ [key] := by
  have hset := Dict.setList_of_notMem a h
  rw [Dict.keys, Dict.set]
  dsimp only
  rw [hset, map_append]
  rfl

theorem perm_erase (h : (key :: order).Perm cache.keys) : order.Perm (cache.erase key).keys := by
  have hnd : (key :: order).Nodup := h.nodup_iff.mpr cache.nodup
  have hkeep : order.filter (· ≠ key) = order := by
    apply filter_eq_self.mpr
    intro k hk
    have hne : k ≠ key := fun he => (nodup_cons.mp hnd).1 (he ▸ hk)
    simpa using hne
  have hf := h.filter (· ≠ key)
  rw [filter_cons_of_neg (by simp), hkeep] at hf
  rwa [keys_erase]

theorem evict_spec (h : order.Perm cache.keys) : (evict max order cache).2.Perm (evict max order cache).1.keys ∧
    (0 < max → (evict max order cache).2.length < max) ∧
      ∀ key a, (evict max order cache).1.get? key = some a → cache.get? key = some a := by
  induction order generalizing cache with
  | nil => exact ⟨h, fun hmax => hmax, fun _ _ ha => ha⟩
  | cons k order ih =>
    rw [evict]
    split
    · obtain ⟨hperm, hlen, hget⟩ := ih (perm_erase h)
      refine ⟨hperm, hlen, fun key a ha => ?_⟩
      have hkey := hget key a ha
      rw [Dict.get?_erase] at hkey
      split at hkey
      · cases hkey
      · exact hkey
    · next hroom =>
      refine ⟨h, fun _ => ?_, fun _ _ ha => ha⟩
      have hlen := h.length_eq
      rw [Dict.keys, length_map] at hlen
      dsimp only
      omega

theorem perm_promote (h : order.Perm cache.keys) (hmem : key ∈ cache.keys) :
    (order.erase key ++ [key]).Perm cache.keys := by
  have hin : key ∈ order := h.mem_iff.mpr hmem
  have hfront : (order.erase key ++ [key]).Perm (key :: order.erase key) := perm_append_singleton _ _
  exact (hfront.trans (perm_cons_erase hin).symm).trans h

end

variable {M : Type} (c : Setting M) (compiledFor : ByteString → Specialization → Prop)
  (own : ByteString → Option Specialization) (shapes : ByteString → List (Nat × List Int))

/-- The artifact is right for the request, and an id that comes with it belongs to the specialization. -/
structure Honest (j : Job) (r : Response) : Prop where
  artifact : r.artifact ≠ []
  compiled : compiledFor r.artifact (specialization c.options j)
  own : r.artifactId ≠ [] → own r.artifactId = some (specialization c.options j) ∧
    ∀ s, r.artifactId ≠ inlineId c.hash s

/-- An artifact without an id is attached for one specialization of its model only. -/
def OneShape (j : Job) (r : Response) : Prop :=
  c.options.attachCompiledArtifact = true → r.artifactId = [] →
    (specialization c.options j).2 = shapes j.serialized

def HonestStep (s : State) : Event M → Prop
  | .compiled t r => ∀ j, s.phase t = .compiling j → Honest c compiledFor own j r
  | _ => True

def OneShapeStep (s : State) : Event M → Prop
  | .compiled t r => ∀ j, s.phase t = .compiling j → OneShape c shapes j r
  | _ => True

/-- The compiler is honest and no two specializations are attached under one invented id. -/
def Allowed (s : State) (e : Event M) : Prop := HonestStep c compiledFor own s e ∧ OneShapeStep c shapes s e

def Owns (id : ByteString) (spec : Specialization) : Prop :=
  (own id = some spec ∧ ∀ s, id ≠ inlineId c.hash s) ∨
    ∃ s, id = inlineId c.hash s ∧ spec = (s, shapes s)

def Fits (id bytes : ByteString) : Prop := ∀ spec, Owns c own shapes id spec → compiledFor bytes spec

def Configured : Prop := c.options.sendCompiledArtifact = true ∨ c.options.attachCompiledArtifact = true

def Right (a : CompiledArtifact) (spec : Specialization) : Prop :=
  if c.options.attachCompiledArtifact then a.bytes = [] ∧ Owns c own shapes a.id spec
  else a.bytes ≠ [] ∧ compiledFor a.bytes spec

def Sound : Phase → Prop
  | .prepared _ => Configured c
  | .compiling _ => Configured c
  | .loading j a => Configured c ∧ c.options.attachCompiledArtifact = true ∧
      compiledFor a.bytes (specialization c.options j) ∧
      Owns c own shapes a.id (specialization c.options j)
  | .ready j a => Configured c ∧ Right c compiledFor own shapes a (specialization c.options j)
  | .returned j ran => compiledFor ran (specialization c.options j)
  | _ => True

/-- `GetOrCompile` is at work for `j`. -/
def Working (p : Phase) (j : Job) : Prop := p = .compiling j ∨ ∃ a, p = .loading j a

structure Invariant (s : State) : Prop where
  phases : ∀ t, Sound c compiledFor own shapes (s.phase t)
  cached : ∀ j a, s.cache.get? (cacheKey c.options j) = some a →
    Right c compiledFor own shapes a (specialization c.options j)
  loaded : ∀ id b, s.loaded.get? id = some b → Fits c compiledFor own shapes id b
  late : ∀ p ∈ s.late, Fits c compiledFor own shapes p.1 p.2
  holder : c.options.cacheCompiledModels = true → ∀ t j, Working (s.phase t) j →
    s.lock = some t ∧ s.cache.get? (cacheKey c.options j) = none
  order : s.order.Perm s.cache.keys
  bound : c.options.maxCachedModels ≠ 0 → s.order.length ≤ c.options.maxCachedModels

variable {c compiledFor own shapes} {s : State} {id bytes : ByteString} {s' : State}

theorem owns_unique (hhash : Function.Injective c.hash) {p q : Specialization} (hp : Owns c own shapes id p)
    (hq : Owns c own shapes id q) : p = q := by
  cases hp with
  | inl hp =>
    cases hq with
    | inl hq => exact Option.some.inj (hp.1.symm.trans hq.1)
    | inr hq =>
      obtain ⟨s, rfl, -⟩ := hq
      exact absurd rfl (hp.2 s)
  | inr hp =>
    obtain ⟨s, rfl, rfl⟩ := hp
    cases hq with
    | inl hq => exact absurd rfl (hq.2 s)
    | inr hq =>
      obtain ⟨u, hu, rfl⟩ := hq
      rw [inlineId_injective hhash hu]

theorem fits_of_owns (hhash : Function.Injective c.hash) {spec : Specialization} (hown : Owns c own shapes id spec)
    (h : compiledFor bytes spec) : Fits c compiledFor own shapes id bytes := by
  intro other hother
  rwa [owns_unique hhash hother hown]

theorem initial_invariant : Invariant c compiledFor own shapes initial where
  phases _ := trivial
  cached _ _ h := by cases h
  loaded _ _ h := by cases h
  late _ h := by cases h
  holder _ _ _ h := by
    rcases h with h | ⟨a, h⟩ <;> cases h
  order := .refl _
  bound _ := Nat.zero_le _

theorem not_working {p : Phase} (h : ∀ j, p ≠ .compiling j) (h' : ∀ j a, p ≠ .loading j a) (j : Job) :
    ¬ Working p j := by
  intro hw
  cases hw with
  | inl hw => exact h j hw
  | inr hw =>
    obtain ⟨a, hw⟩ := hw
    exact h' j a hw

theorem configured_of_prepare {model : M} {inputs : List (Option DLTensor)} {j : Job}
    (hcomp : c.options.compileModel = true)
    (h : prepare c.opTypes c.serialize c.legalizer c.options c.tryDLToOnnx c.sizeOf model inputs = .ok j) :
    Configured c := by
  rw [prepare] at h
  obtain ⟨prepared, -, h⟩ := bind_eq_ok h
  split at h
  · cases h
  · obtain ⟨inputs', -, h⟩ := bind_eq_ok h
    split at h
    · cases h
    · next hconf =>
      rw [hcomp] at hconf
      by_contra hnot
      rw [Configured, not_or] at hnot
      simp [hnot.1, hnot.2] at hconf

section

variable (h : Invariant c compiledFor own shapes s) {t : Nat} {p : Phase}
include h

theorem phases_goto (hp : Sound c compiledFor own shapes p) (u : Nat) :
    Sound c compiledFor own shapes ((s.goto t p).phase u) := by
  rw [State.goto_phase]
  split
  · exact hp
  · exact h.phases u

theorem invariant_goto (hp : Sound c compiledFor own shapes p) (hidle : ∀ j, ¬ Working p j) :
    Invariant c compiledFor own shapes (s.goto t p) where
  phases := phases_goto h hp
  cached := h.cached
  loaded := h.loaded
  late := h.late
  holder hc u j hw := by
    rw [State.goto_phase] at hw
    split at hw
    · exact absurd hw (hidle j)
    · exact h.holder hc u j hw
  order := h.order
  bound := h.bound

theorem invariant_fail : Invariant c compiledFor own shapes (s.fail t) where
  phases := phases_goto h trivial
  cached := h.cached
  loaded := h.loaded
  late := h.late
  holder hc u j hw := by
    have hu : u ≠ t ∧ Working (s.phase u) j := by
      change Working ((s.goto t .failed).phase u) j at hw
      rw [State.goto_phase] at hw
      split at hw
      · exact absurd hw (not_working (fun _ he => by cases he) (fun _ _ he => by cases he) j)
      · next hne => exact ⟨hne, hw⟩
    obtain ⟨hlock, hget⟩ := h.holder hc u j hu.2
    refine ⟨?_, hget⟩
    have hne : ¬ s.lock = some t := by
      rw [hlock]
      exact fun he => hu.1 (Option.some.inj he)
    rw [State.fail]
    rw [if_neg hne, hlock]
  order := h.order
  bound := h.bound

theorem invariant_loaded (hfit : Fits c compiledFor own shapes id bytes) :
    Invariant c compiledFor own shapes { s with loaded := s.loaded.set id bytes } :=
  { h with
    loaded := by
      intro i b hb
      rw [Dict.get?_set] at hb
      split at hb
      · next hi =>
        cases hb
        rwa [hi]
      · exact h.loaded i b hb }

theorem invariant_late (hfit : Fits c compiledFor own shapes id bytes) :
    Invariant c compiledFor own shapes { s with late := s.late ++ [(id, bytes)] } :=
  { h with
    late := by
      intro q hq
      rcases mem_append.mp hq with hq | hq
      · exact h.late q hq
      · rw [mem_singleton.mp hq]
        exact hfit }

theorem invariant_arrive {k : Nat} {q : ByteString × ByteString} (hq : s.late[k]? = some q) :
    Invariant c compiledFor own shapes { s with loaded := s.loaded.set q.1 q.2, late := s.late.eraseIdx k } :=
  { invariant_loaded h (h.late q (mem_of_getElem? hq)) with
    late := fun p hp => h.late p ((eraseIdx_sublist _ _).subset hp) }

theorem invariant_publish {j : Job} {a : CompiledArtifact} (hwork : Working (s.phase t) j)
    (hready : Sound c compiledFor own shapes (.ready j a)) :
    Invariant c compiledFor own shapes
      (publish c.options (cacheKey c.options j) a (s.goto t (.ready j a))) := by
  have hidle : ∀ i, ¬ Working (.ready j a) i := not_working (fun _ he => by cases he) (fun _ _ he => by cases he)
  cases hcache : c.options.cacheCompiledModels with
  | false =>
    rw [publish, hcache]
    exact invariant_goto h hready hidle
  | true =>
    obtain ⟨hlock, hget⟩ := h.holder hcache t j hwork
    rw [publish, hcache, if_pos rfl]
    have hroom : ∃ room : Dict ByteString CompiledArtifact × List ByteString,
        (if c.options.maxCachedModels ≠ 0 then evict c.options.maxCachedModels s.order s.cache
          else (s.cache, s.order)) = room ∧ room.2.Perm room.1.keys ∧
        (c.options.maxCachedModels ≠ 0 → room.2.length < c.options.maxCachedModels) ∧
        ∀ key b, room.1.get? key = some b → s.cache.get? key = some b := by
      refine ⟨_, rfl, ?_⟩
      split
      · obtain ⟨hperm, hlen, hkeep⟩ := @evict_spec c.options.maxCachedModels _ _ h.order
        exact ⟨hperm, fun hmax => hlen (Nat.pos_of_ne_zero hmax), hkeep⟩
      · next hmax => exact ⟨h.order, fun hne => absurd hne hmax, fun _ _ hb => hb⟩
    obtain ⟨⟨cache, order⟩, hroom, hperm, hlen, hkeep⟩ := hroom
    have hnew : cacheKey c.options j ∉ cache.keys := by
      intro hmem
      obtain ⟨b, hb⟩ := Dict.mem_keys_iff.mp hmem
      rw [hkeep _ b hb] at hget
      cases hget
    have hroom' : (if c.options.maxCachedModels ≠ 0 then
        evict c.options.maxCachedModels (s.goto t (.ready j a)).order (s.goto t (.ready j a)).cache
          else ((s.goto t (.ready j a)).cache, (s.goto t (.ready j a)).order)) = (cache, order) := hroom
    rw [hroom']
    refine ⟨phases_goto h hready, ?_, h.loaded, h.late, ?_, ?_, ?_⟩
    · intro i b hb
      rw [Dict.get?_set] at hb
      split at hb
      · next hkey =>
        cases hb
        rw [cacheKey_injective hkey]
        exact hready.2
      · exact h.cached i b (hkeep _ b hb)
    · intro _ u i hw
      rw [State.goto_phase] at hw
      split at hw
      · exact absurd hw (hidle i)
      · next hu =>
        have hother := (h.holder hcache u i hw).1
        rw [hlock] at hother
        exact absurd (Option.some.inj hother).symm hu
    · rw [keys_set hnew]
      exact hperm.append_right _
    · intro hmax
      have := hlen hmax
      rw [length_append, length_singleton]
      omega

end

section

variable (h : Invariant c compiledFor own shapes s) {t : Nat} {j : Job} {a : CompiledArtifact}
include h

theorem invariant_call (model : M) (inputs : List (Option DLTensor)) :
    Invariant c compiledFor own shapes (call c s t model inputs) := by
  rw [call]
  split
  · exact invariant_goto h trivial (not_working (fun _ he => by cases he) (fun _ _ he => by cases he))
  · next j hprep =>
    by_cases hcomp : c.options.compileModel = true
    · rw [if_pos hcomp]
      refine invariant_goto h ?_ (not_working (fun _ he => by cases he) (fun _ _ he => by cases he))
      exact configured_of_prepare hcomp hprep
    · rw [if_neg hcomp]
      exact invariant_goto h trivial (not_working (fun _ he => by cases he) (fun _ _ he => by cases he))

theorem invariant_getOrCompile (ht : s.phase t = .prepared j) (hstep : getOrCompile c s t j = some s') :
    Invariant c compiledFor own shapes s' := by
  have hconf : Configured c := by
    have := h.phases t
    rwa [ht] at this
  rw [getOrCompile] at hstep
  cases hcache : c.options.cacheCompiledModels with
  | false =>
    rw [hcache] at hstep
    cases hstep
    exact { h with
      phases := phases_goto h hconf
      holder := fun hc => by rw [hcache] at hc; cases hc }
  | true =>
    rw [hcache] at hstep
    rw [if_neg (by simp)] at hstep
    split at hstep
    · cases hstep
    · next hfree =>
      have hlock : s.lock = none := by simpa using hfree
      split at hstep
      · next a hget =>
        cases hstep
        have hright := h.cached j a hget
        have hgoto := invariant_goto (t := t) h (p := .ready j a) ⟨hconf, hright⟩
          (not_working (fun _ he => by cases he) (fun _ _ he => by cases he))
        refine { hgoto with order := ?_, bound := ?_ }
        · exact perm_promote h.order (Dict.mem_keys_iff.mpr ⟨a, hget⟩)
        · intro hmax
          have hperm := perm_promote h.order (Dict.mem_keys_iff.mpr ⟨a, hget⟩)
          have hlen := hperm.length_eq.trans h.order.length_eq.symm
          have hbound := h.bound hmax
          dsimp only
          omega
      · next hget =>
        cases hstep
        refine { h with phases := phases_goto h hconf, holder := ?_ }
        intro _ u i hw
        rw [State.goto_phase] at hw
        split at hw
        · next hu =>
          rcases hw with hw | ⟨a, hw⟩ <;> cases hw
          exact ⟨by rw [hu], hget⟩
        · have hother := (h.holder hcache u i hw).1
          rw [hlock] at hother
          cases hother

variable {r : Response}

omit h in
theorem right_of_honest (hhonest : Honest c compiledFor own j r) (hattach : c.options.attachCompiledArtifact = false) :
    Right c compiledFor own shapes (artifactOf c j r) (specialization c.options j) := by
  rw [Right, hattach]
  exact ⟨hhonest.artifact, hhonest.compiled⟩

omit h in
theorem owns_of_honest (hhonest : Honest c compiledFor own j r) (hshape : OneShape c shapes j r)
    (hattach : c.options.attachCompiledArtifact = true) :
    Owns c own shapes (artifactOf c j r).id (specialization c.options j) := by
  cases hid : r.artifactId with
  | nil =>
    refine .inr ⟨j.serialized, ?_, ?_⟩
    · simp [artifactOf, hid]
    · exact Prod.ext rfl (hshape hattach hid)
  | cons b id =>
    have hown := hhonest.own (by simp [hid])
    have hsame : (artifactOf c j r).id = r.artifactId := by simp [artifactOf, hid]
    rw [hsame]
    exact .inl hown

theorem invariant_compiled (ht : s.phase t = .compiling j) (hhonest : Honest c compiledFor own j r)
    (hshape : OneShape c shapes j r) :
    Invariant c compiledFor own shapes (compiled c s t j r) := by
  have hconf : Configured c := by
    have := h.phases t
    rwa [ht] at this
  rw [compiled]
  split
  · cases hattach : c.options.attachCompiledArtifact with
    | false =>
      exact invariant_publish h (.inl ht) ⟨hconf, right_of_honest hhonest hattach⟩
    | true =>
      rw [if_pos rfl]
      refine { h with
        phases := phases_goto h ⟨hconf, hattach, hhonest.compiled, owns_of_honest hhonest hshape hattach⟩
        holder := ?_ }
      intro hcache u i hw
      rw [State.goto_phase] at hw
      split at hw
      · next hu =>
        rcases hw with hw | ⟨a, hw⟩ <;> cases hw
        rw [hu]
        exact h.holder hcache t j (.inl ht)
      · exact h.holder hcache u i hw
  · exact invariant_fail h

theorem invariant_load (hhash : Function.Injective c.hash) (ht : s.phase t = .loading j a) :
    Invariant c compiledFor own shapes (load c s t j a) := by
  have hsound := h.phases t
  rw [ht] at hsound
  obtain ⟨hconf, hattach, hcompiled, hown⟩ := hsound
  have hloaded := invariant_loaded h (fits_of_owns hhash hown hcompiled)
  refine invariant_publish hloaded (.inr ⟨a, ht⟩) ⟨hconf, ?_⟩
  rw [Right, hattach]
  exact ⟨rfl, hown⟩

theorem invariant_lose (hhash : Function.Injective c.hash) (ht : s.phase t = .loading j a) (lost : Lost) :
    Invariant c compiledFor own shapes (s.lose a lost) := by
  have hsound := h.phases t
  rw [ht] at hsound
  obtain ⟨-, -, hcompiled, hown⟩ := hsound
  cases lost with
  | dropped => exact h
  | arrived => exact invariant_loaded h (fits_of_owns hhash hown hcompiled)
  | delayed => exact invariant_late h (fits_of_owns hhash hown hcompiled)

theorem invariant_execute (ht : s.phase t = .ready j a) (hstep : execute c s t j a = some s') :
    Invariant c compiledFor own shapes s' := by
  have hsound := h.phases t
  rw [ht] at hsound
  obtain ⟨hconf, hright⟩ := hsound
  rw [execute, Option.map_eq_some_iff] at hstep
  obtain ⟨ran, hran, rfl⟩ := hstep
  refine invariant_goto h ?_ (not_working (fun _ he => by cases he) (fun _ _ he => by cases he))
  rw [Right] at hright
  cases hattach : c.options.attachCompiledArtifact with
  | false =>
    rw [hattach] at hright
    have hsend : c.options.sendCompiledArtifact = true := hconf.resolve_right (by simp [hattach])
    rw [hsend, if_pos rfl, runner, if_pos hright.1] at hran
    cases hran
    exact hright.2
  | true =>
    rw [hattach, if_pos rfl] at hright
    have hnone : (if c.options.sendCompiledArtifact = true then a.bytes else []) = [] := by
      rw [hright.1, ite_self]
    rw [hnone, runner, if_neg (by simp)] at hran
    exact h.loaded a.id ran hran _ hright.2

end

theorem invariant_next (hhash : Function.Injective c.hash) {e : Event M} (h : Invariant c compiledFor own shapes s)
    (hok : Allowed c compiledFor own shapes s e) (hstep : next c s e = some s') :
    Invariant c compiledFor own shapes s' := by
  cases e with
  | call t model inputs =>
    rw [Executor.next] at hstep
    split at hstep <;> cases hstep <;> exact invariant_call h model inputs
  | getOrCompile t =>
    rw [Executor.next] at hstep
    split at hstep
    · next j ht => exact invariant_getOrCompile h ht hstep
    · cases hstep
  | compiled t r =>
    rw [Executor.next] at hstep
    split at hstep
    · next j ht =>
      cases hstep
      exact invariant_compiled h ht (hok.1 j ht) (hok.2 j ht)
    · cases hstep
  | compileFailed t =>
    rw [Executor.next] at hstep
    split at hstep <;> cases hstep
    exact invariant_fail h
  | load t =>
    rw [Executor.next] at hstep
    split at hstep
    · next j a ht =>
      cases hstep
      exact invariant_load h hhash ht
    · cases hstep
  | loadFailed t lost =>
    rw [Executor.next] at hstep
    split at hstep
    · next j a ht =>
      cases hstep
      exact invariant_fail (invariant_lose h hhash ht lost)
    · cases hstep
  | arrive k =>
    rw [Executor.next, Option.map_eq_some_iff] at hstep
    obtain ⟨q, hq, rfl⟩ := hstep
    exact invariant_arrive h hq
  | execute t =>
    rw [Executor.next] at hstep
    split at hstep
    · next j a ht => exact invariant_execute h ht hstep
    · cases hstep
      exact invariant_goto h trivial (not_working (fun _ he => by cases he) (fun _ _ he => by cases he))
    · cases hstep
  | executeFailed t =>
    rw [Executor.next] at hstep
    split at hstep
    · cases hstep
      exact invariant_goto h trivial (not_working (fun _ he => by cases he) (fun _ _ he => by cases he))
    · cases hstep
      exact invariant_goto h trivial (not_working (fun _ he => by cases he) (fun _ _ he => by cases he))
    · cases hstep

theorem invariant_run (hhash : Function.Injective c.hash)
    (hrun : Run (next c) (Allowed c compiledFor own shapes) initial s) :
    Invariant c compiledFor own shapes s :=
  hrun.induct initial_invariant fun _ _ _ h hok hstep => invariant_next hhash h hok hstep

end Onnxsim.Remote.Consistency
