import Onnxsim.Axcl.Refusals
import Onnxsim.Lib.Runs

namespace Onnxsim.Axcl.Soundness

open List Option Lib.Bytes Lib.Runs Wire.Messages Storage.Pool
open Controls Models Running Ledger Runs
open Caching Holding Refusals

variable {cfg : Config} {engine : Engine} {files : Files} {faults : Faults} {request : Request} {path : ByteString}
  {history : List Record} {next : Nat} {models rest : List LoadedModel} {m : LoadedModel}

section

def StatesApart (m m' : LoadedModel) : Prop := m.stateId ≠ 0 → m.stateId ≠ m'.stateId

theorem StatesApart.symm {m m' : LoadedModel} (h : StatesApart m m') : StatesApart m' m :=
  fun h0 heq => h (heq ▸ h0) heq.symm

/-- Every model that is held is as its file described it, its host copies are right, and its state, if it has one, is
what the history of that state makes of it; and all ids are below the next one. -/
structure Sound (cfg : Config) (engine : Engine) (history : List Record) (next : Nat) (models : List LoadedModel) :
    Prop where
  described : ∀ m ∈ models, Described engine m
  mirrored : ∀ m ∈ models, Mirrored cfg m
  stated : ∀ m ∈ models, m.stateId ≠ 0 → ledger engine history m.stateId = some ⟨m.image, m.contents⟩
  apart : models.Pairwise StatesApart
  below : ∀ m ∈ models, m.stateId ≠ 0 → m.stateId < next
  recorded : ∀ r ∈ history, r.id < next

theorem Sound.sublist (h : Sound cfg engine history next models) (hsub : rest.Sublist models) :
    Sound cfg engine history next rest where
  described m hm := h.described m (hsub.subset hm)
  mirrored m hm := h.mirrored m (hsub.subset hm)
  stated m hm := h.stated m (hsub.subset hm)
  apart := h.apart.sublist hsub
  below m hm := h.below m (hsub.subset hm)
  recorded := h.recorded

theorem Sound.perm (h : Sound cfg engine history next models) (hperm : rest.Perm models) :
    Sound cfg engine history next rest where
  described m hm := h.described m (hperm.subset hm)
  mirrored m hm := h.mirrored m (hperm.subset hm)
  stated m hm := h.stated m (hperm.subset hm)
  apart := (hperm.pairwise_iff fun h => h.symm).mpr h.apart
  below m hm := h.below m (hperm.subset hm)
  recorded := h.recorded

theorem Sound.tail (h : Sound cfg engine history next (m :: rest)) : Sound cfg engine history next rest :=
  h.sublist (sublist_cons_self _ _)

theorem Sound.cons_stateless (h : Sound cfg engine history next rest) (hd : Described engine m) (h0 : m.stateId = 0) :
    Sound cfg engine history next (m :: rest) where
  described := forall_mem_cons.mpr ⟨hd, h.described⟩
  mirrored := forall_mem_cons.mpr ⟨fun _ hne => absurd h0 hne, h.mirrored⟩
  stated := forall_mem_cons.mpr ⟨fun hne => absurd h0 hne, h.stated⟩
  apart := pairwise_cons.mpr ⟨fun _ _ hne => absurd h0 hne, h.apart⟩
  below := forall_mem_cons.mpr ⟨fun hne => absurd h0 hne, h.below⟩
  recorded := h.recorded

variable {next' : Nat} {r : Record}

theorem Sound.record (h : Sound cfg engine history next rest) (hother : ∀ m ∈ rest, m.stateId ≠ 0 → m.stateId ≠ r.id)
    (hnext : next ≤ next') (hid : r.id < next') :
    Sound cfg engine (r :: history) next' rest where
  described := h.described
  mirrored := h.mirrored
  stated m hm hne := by
    rw [ledger_cons_of_ne (hother m hm hne)]
    exact h.stated m hm hne
  apart := h.apart
  below m hm hne := lt_of_lt_of_le (h.below m hm hne) hnext
  recorded := forall_mem_cons.mpr ⟨hid, fun r hr => lt_of_lt_of_le (h.recorded r hr) hnext⟩

theorem Sound.cons_recorded (h : Sound cfg engine (r :: history) next' rest)
    (hother : ∀ m ∈ rest, m.stateId ≠ 0 → m.stateId ≠ r.id) (hd : Described engine m) (hm : Mirrored cfg m)
    (hid : m.stateId = r.id) (hl : ledger engine (r :: history) r.id = some ⟨m.image, m.contents⟩) :
    Sound cfg engine (r :: history) next' (m :: rest) where
  described := forall_mem_cons.mpr ⟨hd, h.described⟩
  mirrored := forall_mem_cons.mpr ⟨hm, h.mirrored⟩
  stated := forall_mem_cons.mpr ⟨fun _ => by rw [hid, hl], h.stated⟩
  apart := by
    refine pairwise_cons.mpr ⟨fun m' hm' => ?_, h.apart⟩
    intro hne heq
    exact hother m' hm' (heq ▸ hne) (heq ▸ hid)
  below := forall_mem_cons.mpr ⟨fun _ => hid ▸ h.recorded r mem_cons_self, h.below⟩
  recorded := h.recorded

theorem other_of_apart {id : Nat} (h : Sound cfg engine history next (m :: rest)) (hid : m.stateId = id) (h0 : id ≠ 0) :
    ∀ m' ∈ rest, m'.stateId ≠ 0 → m'.stateId ≠ id := by
  intro m' hm' _ heq
  have hapart := (pairwise_cons.mp h.apart).1 m' hm'
  exact hapart (hid ▸ h0) (hid.trans heq.symm)

theorem other_of_below (h : Sound cfg engine history next rest) : ∀ m' ∈ rest, m'.stateId ≠ 0 → m'.stateId ≠ next :=
  fun m' hm' hne heq => absurd (h.below m' hm' hne) (heq ▸ Nat.lt_irrefl _)

/-- What is asked of the use of a model: the models that are then held are sound for the history with its record. -/
def KeepsSound (cfg : Config) (engine : Engine) (history : List Record) (request : Request) (u : Used)
    (rest : List LoadedModel) : Prop :=
  Sound cfg engine ((record request u.outcome).toList ++ history) u.next (u.model.toList ++ rest)

theorem useInfo_sound (h : Sound cfg engine history next (m :: rest)) :
    KeepsSound cfg engine history request (useInfo cfg request path m next) rest := by
  rw [useInfo]
  split
  · exact h
  · exact h

theorem useReset_sound (hnext : next + 1 < 2 ^ 64) (h : Sound cfg engine history next (m :: rest)) :
    KeepsSound cfg engine history request (useReset cfg request faults m next) rest := by
  rw [useReset]
  split
  · exact h.tail
  next r hr =>
    have hd := h.described m mem_cons_self
    obtain ⟨hcontents, hid, hn, hshadow, -, himage, hin, hout, -, -⟩ := resetState_eq_ok hd hr
    have hsucc : r.2 = next + 1 := by rw [hn, nextStateId, Nat.mod_eq_of_lt hnext]
    rw [KeepsSound, hsucc, hid]
    refine ((h.tail.record (r := .reset next m.image) (other_of_below h.tail) (Nat.le_succ _) (Nat.lt_succ_self _))
      |>.cons_recorded (other_of_below h.tail) ?_ ?_ hid ?_)
    · exact ⟨by rw [hin, himage, hd.inputs], by rw [hout, himage, hd.outputs]⟩
    · exact fun hhost _ => hshadow hhost
    · rw [ledger, Record.id, Function.update_self, himage, hcontents]
      rfl

theorem useRun_sound {resident : Option ResidentControl} (hzero : resident.bind ResidentControl.state ≠ some 0)
    (hnext : next + 1 < 2 ^ 64) (h : Sound cfg engine history next (m :: rest)) :
    KeepsSound cfg engine history request (useRun cfg engine request faults resident m next) rest := by
  rw [useRun]
  split
  · exact h
  · exact h.tail
  next m' next' ran outputs hrun =>
    have hd := h.described m mem_cons_self
    obtain ⟨us, shells, hp, hperf⟩ := runLoaded_eq_done hrun
    have hdone := perform_eq_ok hp hd (h.mirrored m mem_cons_self) (hp.nonzero hzero) hperf
    obtain ⟨-, himage, hin, hout, -, -⟩ := hdone.same
    have hd' : Described engine m' := ⟨by rw [hin, himage, hd.inputs], by rw [hout, himage, hd.outputs]⟩
    cases resident with
    | none =>
      have hn : next' = next := hdone.issued
      rw [KeepsSound, hn]
      exact h.tail.cons_stateless hd' hdone.stateId
    | some control =>
      have hm' : Mirrored cfg m' := fun hhost _ => hdone.shadow hhost rfl
      have hcontents := hdone.contents
      cases hstate : control.state with
      | none =>
        have hc : continues (some control) = false := by
          rw [continues, bind_some, hstate]
          rfl
        have hid : m'.stateId = next := by
          rw [hdone.stateId, hc]
          rfl
        have hsucc : next' = next + 1 := by
          rw [hdone.issued, hc]
          exact Nat.mod_eq_of_lt hnext
        rw [KeepsSound, record_issued hstate, hid, hsucc]
        refine ((h.tail.record (r := .issued next m.image request.inputs control.writes) (other_of_below h.tail)
          (Nat.le_succ _) (Nat.lt_succ_self _)) |>.cons_recorded (other_of_below h.tail) hd' hm' hid ?_)
        rw [ledger, Record.id, Function.update_self, himage, hcontents, Resident.run, Resident.run,
          hp.replaced_of_issues hd hc]
        rfl
      | some id =>
        have hc : continues (some control) = true := by
          rw [continues, bind_some, hstate]
          rfl
        have hmid : m.stateId = id := hp.state hstate
        have h0 : id ≠ 0 := fun h0 => hzero (h0 ▸ hstate)
        have hid : m'.stateId = id := by
          rw [hdone.stateId, hc]
          exact hmid
        have hn : next' = next := by
          rw [hdone.issued, hc]
          rfl
        have hother := other_of_apart h hmid h0
        have hlt : id < next := hmid ▸ h.below m mem_cons_self (hmid ▸ h0)
        have hledger : ledger engine history id = some ⟨m.image, m.contents⟩ :=
          hmid ▸ h.stated m mem_cons_self (hmid ▸ h0)
        rw [KeepsSound, record_continued hstate, hid, hn]
        refine ((h.tail.record (r := .continued id request.inputs control.writes) hother (Nat.le_refl _) hlt)
          |>.cons_recorded hother hd' hm' hid ?_)
        rw [ledger, Record.id, Function.update_self, hledger, himage, hcontents, map_some, Resident.run,
          Resident.run, hp.replaced_of_continues]
        rfl

variable {w : Worker}

/-- What is asked of a request: the worker's models are sound for the history with its record. -/
def AnswersSound (cfg : Config) (engine : Engine) (history : List Record) (request : Request)
    (r : Worker × Response × Outcome) : Prop :=
  Sound cfg engine ((record request r.2.2).toList ++ history) r.1.nextStateId r.1.models ∧
    r.1.models.length ≤ cfg.maxLoaded

/-- No model is found, or a model that is sound among the others is used and is held afterwards in a cache. -/
theorem withModel_cases (files : Files) (faults : Faults) (request : Request) (path : ByteString)
    (use : LoadedModel → Nat → Used) (h : Sound cfg engine history w.nextStateId w.models)
    (hlen : w.models.length ≤ cfg.maxLoaded) :
    (∃ rest e, rest.Sublist w.models ∧
      withModel cfg engine files faults w request path use = (⟨rest, w.nextStateId⟩, refusal request e, .refused)) ∨
    ∃ m rest held, Sound cfg engine history w.nextStateId (m :: rest) ∧
      held.Sublist ((use m w.nextStateId).model.toList ++ rest) ∧ held.length ≤ cfg.maxLoaded ∧
        withModel cfg engine files faults w request path use = (⟨held, (use m w.nextStateId).next⟩,
          (use m w.nextStateId).response, (use m w.nextStateId).outcome) := by
  have hopt : ∀ u : Used, u.model.toList.length ≤ 1 := fun u => by cases u.model <;> simp
  rw [withModel]
  split
  · have hacq := acquireCached_cases cfg engine files faults path w.models
    split
    next rest e heq =>
      rw [heq] at hacq
      cases hacq with
      | inl hfound =>
        obtain ⟨m, hm, -⟩ := hfound
        cases hm
      | inr hloaded => exact .inl ⟨rest, e, hloaded.1, rfl⟩
    next rest m heq =>
      rw [heq] at hacq
      have hu := hopt (use m w.nextStateId)
      cases hacq with
      | inl hfound =>
        obtain ⟨m', hm, hperm⟩ := hfound
        cases hm
        refine .inr ⟨m, rest, _, h.perm hperm, Sublist.refl _, ?_, rfl⟩
        have hl := hperm.length_eq
        simp only [length_cons, length_append] at hl ⊢
        omega
      | inr hloaded =>
        have hfresh := hloaded.2.2 m rfl
        have hsound := (h.sublist hloaded.1).cons_stateless hfresh.described hfresh.stateless
        refine .inr ⟨m, rest, _, hsound, Sublist.refl _, ?_, rfl⟩
        have hl := hloaded.2.1
        simp only [length_append] at hl ⊢
        omega
  · split
    next e he => exact .inl ⟨w.models, e, Sublist.refl _, rfl⟩
    next m hm =>
      have hfresh := loadModel_eq_ok hm
      exact .inr ⟨m, w.models, w.models, h.cons_stateless hfresh.described hfresh.stateless, sublist_append_right _ _, hlen, rfl⟩

theorem unloadTarget_sound (h : Sound cfg engine history w.nextStateId w.models) (hlen : w.models.length ≤ cfg.maxLoaded) :
    AnswersSound cfg engine history request (unloadTarget w request path) := by
  have hsub : (if path = [] then [] else w.models.eraseP (·.key = path)).Sublist w.models := by
    split
    · exact nil_sublist _
    · exact eraseP_sublist
  exact ⟨h.sublist hsub, le_trans hsub.length_le hlen⟩

theorem uses_sound {use : Config → LoadedModel → Nat → Used} (huse : Uses engine faults request path use)
    (hnext : next + 1 < 2 ^ 64) (h : Sound cfg engine history next (m :: rest)) :
    KeepsSound cfg engine history request (use cfg m next) rest := by
  cases huse with
  | info => exact useInfo_sound h
  | reset => exact useReset_sound hnext h
  | run resident hzero => exact useRun_sound hzero hnext h

theorem executeRequest_sound (hnext : w.nextStateId + 1 < 2 ^ 64) (h : Sound cfg engine history w.nextStateId w.models)
    (hlen : w.models.length ≤ cfg.maxLoaded) :
    AnswersSound cfg engine history request (executeRequest cfg engine files faults w request).2 := by
  obtain ⟨l, files', F, -, hserves, heq⟩ := executeRequest_serves cfg engine files faults request
  have hexec : executeRequest cfg engine files faults w request = (files', F cfg w) := heq cfg.rowCopyOnDevice w
  rw [hexec]
  cases hserves with
  | refused e => exact ⟨h, hlen⟩
  | answered l files' id manifest => exact ⟨h, hlen⟩
  | unloaded l path => exact unloadTarget_sound h hlen
  | used huse =>
    dsimp only
    obtain ⟨rest, e, hsub, heq⟩ | ⟨m, rest, held, hs, hheld, hcount, heq⟩ := withModel_cases files' faults request _ _ h hlen
    · rw [heq]
      exact ⟨h.sublist hsub, le_trans hsub.length_le hlen⟩
    · rw [heq]
      exact ⟨(uses_sound huse hnext hs).sublist hheld, hcount⟩

end

variable {w w' : World} {e : Event} {firstStateId : Nat}

def CanIssue (w : World) (_ : Event) : Prop := w.worker.nextStateId + 1 < 2 ^ 64

/-- The worker's models are sound for the history, and no more than it may hold. -/
structure WorldSound (cfg : Config) (engine : Engine) (w : World) : Prop where
  sound : Sound cfg engine w.history w.worker.nextStateId w.worker.models
  count : w.worker.models.length ≤ cfg.maxLoaded

theorem worldSound_start : WorldSound cfg engine (World.start files firstStateId) where
  sound := ⟨nofun, nofun, nofun, .nil, nofun, nofun⟩
  count := Nat.zero_le _

theorem worldSound_step (hcan : CanIssue w e) (h : WorldSound cfg engine w) (hs : step cfg engine w e = some w') :
    WorldSound cfg engine w' := by
  cases hs
  cases e with
  | replace path file => exact ⟨h.sound, h.count⟩
  | request request faults =>
    have hanswers : AnswersSound cfg engine w.history request
        (executeRequest cfg engine w.files faults w.worker request).2 := executeRequest_sound hcan h.sound h.count
    exact ⟨hanswers.1, hanswers.2⟩

theorem worldSound_run (h : Run (step cfg engine) CanIssue (World.start files firstStateId) w) : WorldSound cfg engine w :=
  h.induct worldSound_start fun _ _ _ hw hcan hs => worldSound_step hcan hw hs

end Onnxsim.Axcl.Soundness

namespace Onnxsim.Axcl.Answers

open List Option Lib.Bytes Lib.Runs Wire.Messages Storage.Pool
open Controls Models Running Ledger Transfers
open Runs Caching Holding Refusals Soundness

variable {cfg : Config} {engine : Engine} {files : Files} {faults : Faults} {request : Request} {path : ByteString}
  {history : List Record} {next : Nat} {models rest : List LoadedModel} {m : LoadedModel} {w : Worker}
  {response : Response} {outcome : Outcome}

/-- A state is issued under the next id, or continued under its own; the response tells the id. -/
structure Tells (history : List Record) (next : Nat) (request : Request) (response : Response) (outcome : Outcome) :
    Prop where
  manifest : ∀ r, record request outcome = some r → response.manifest = stateManifest r.id
  issued : ∀ r, record request outcome = some r → (∃ inputs writes, r = .continued r.id inputs writes) ∨ r.id = next
  refused : outcome = .refused → response.ok = false

theorem useInfo_tells : Tells history next request (useInfo cfg request path m next).response
    (useInfo cfg request path m next).outcome := by
  rw [useInfo]
  split
  · constructor <;> simp [record]
  · constructor <;> simp [record]

theorem useReset_tells : Tells history next request (useReset cfg request faults m next).response
    (useReset cfg request faults m next).outcome := by
  rw [useReset]
  split
  · constructor <;> simp [record]
  next r hr =>
    have hid : r.1.stateId = next := by
      obtain ⟨mem, -, hr⟩ := Lib.Results.bind_eq_ok hr
      cases hr
      rfl
    refine ⟨fun r' hr' => ?_, fun r' hr' => ?_, fun h => (by cases h)⟩
    · cases hr'
      rfl
    · cases hr'
      exact .inr hid

theorem useRun_tells {resident : Option ResidentControl} (hzero : resident.bind ResidentControl.state ≠ some 0)
    (h : Sound cfg engine history next (m :: rest)) :
    Tells history next request (useRun cfg engine request faults resident m next).response
      (useRun cfg engine request faults resident m next).outcome := by
  rw [useRun]
  split
  · constructor <;> simp [record]
  · constructor <;> simp [record]
  next m' next' ran outputs hrun =>
    obtain ⟨us, shells, hp, hperf⟩ := runLoaded_eq_done hrun
    have hdone := perform_eq_ok hp (h.described m mem_cons_self) (h.mirrored m mem_cons_self) (hp.nonzero hzero) hperf
    cases resident with
    | none => constructor <;> simp [record]
    | some control =>
      cases hstate : control.state with
      | none =>
        have hid : m'.stateId = next := by
          rw [hdone.stateId, continues, bind_some, hstate]
          rfl
        refine ⟨fun r hr => ?_, fun r hr => ?_, fun h => (by cases h)⟩
        · cases (record_issued hstate).symm.trans hr
          rfl
        · cases (record_issued hstate).symm.trans hr
          exact .inr hid
      | some id =>
        refine ⟨fun r hr => ?_, fun r hr => ?_, fun h => (by cases h)⟩
        · cases (record_continued hstate).symm.trans hr
          rfl
        · cases (record_continued hstate).symm.trans hr
          exact .inl ⟨_, _, rfl⟩

theorem uses_tells {use : Config → LoadedModel → Nat → Used} (huse : Uses engine faults request path use)
    (h : Sound cfg engine history next (m :: rest)) :
    Tells history next request (use cfg m next).response (use cfg m next).outcome := by
  cases huse with
  | info => exact useInfo_tells
  | reset => exact useReset_tells
  | run resident hzero => exact useRun_tells hzero h

theorem executeRequest_tells (h : Sound cfg engine history w.nextStateId w.models)
    (hlen : w.models.length ≤ cfg.maxLoaded) :
    Tells history w.nextStateId request (executeRequest cfg engine files faults w request).2.2.1
      (executeRequest cfg engine files faults w request).2.2.2 := by
  obtain ⟨l, files', F, -, hserves, heq⟩ := executeRequest_serves cfg engine files faults request
  have hexec : executeRequest cfg engine files faults w request = (files', F cfg w) := heq cfg.rowCopyOnDevice w
  rw [hexec]
  cases hserves with
  | refused e => exact ⟨nofun, nofun, fun _ => rfl⟩
  | answered l files' id manifest => exact ⟨nofun, nofun, nofun⟩
  | unloaded l path => exact ⟨nofun, nofun, nofun⟩
  | used huse =>
    dsimp only
    obtain ⟨rest, e, -, heq⟩ | ⟨m, rest, held, hs, -, -, heq⟩ := withModel_cases files' faults request _ _ h hlen
    · rw [heq]
      exact ⟨nofun, nofun, fun _ => rfl⟩
    · rw [heq]
      exact uses_tells huse hs

variable {control : ResidentControl} {id : Nat}

/-- What a successful request on a state does: the engine runs the model that the state was issued for, on what the
history of the state makes of the inputs with those of the request in their places, and returns its outputs. -/
structure RunsOn (engine : Engine) (history : List Record) (request : Request) (control : ResidentControl) (id : Nat)
    (m : LoadedModel) (ins : List ByteString) (response : Response) : Prop where
  held : ∃ contents, ledger engine history id = some ⟨m.image, contents⟩ ∧
    ins = replaced contents (request.inputs.map sent)
  outputs : ∃ shells, prepareOutputs control.omits 0 (engine.outputs m.image) = .ok shells ∧
    response.outputs = collect control.omits (engine.execute m.image ins) 0 shells

theorem useRun_runsOn (hstate : control.state = some id) (hid : id ≠ 0)
    (h : Sound cfg engine history next (m :: rest))
    (hok : (useRun cfg engine request faults (some control) m next).response.ok = true) :
    ∃ ins, (useRun cfg engine request faults (some control) m next).outcome = .ran m ins (some control) id ∧
      RunsOn engine history request control id m ins (useRun cfg engine request faults (some control) m next).response := by
  rw [useRun] at hok ⊢
  split at hok
  · cases hok
  · cases hok
  next m' next' ran outputs hrun =>
    obtain ⟨us, shells, hp, hperf⟩ := runLoaded_eq_done hrun
    have hmid : m.stateId = id := hp.state hstate
    have hd := h.described m mem_cons_self
    have hdone := perform_eq_ok hp hd (h.mirrored m mem_cons_self) (fun _ => hmid ▸ hid) hperf
    have hc : continues (some control) = true := by
      rw [continues, bind_some, hstate]
      rfl
    have hid' : m'.stateId = id := by
      rw [hdone.stateId, hc]
      exact hmid
    refine ⟨ran, by rw [← hid'], ?_⟩
    refine ⟨⟨m.contents, hmid ▸ h.stated m mem_cons_self (hmid ▸ hid), ?_⟩, shells, ?_, hdone.returned⟩
    · rw [hdone.executed, hp.replaced_of_continues]
    · rw [← hd.outputs]
      exact hp.shells

theorem executeRequest_runsOn (hop : request.op = ascii "run_resident")
    (hc : parse_resident_control request.artifact = .ok control) (hstate : control.state = some id)
    (h : Sound cfg engine history w.nextStateId w.models) (hlen : w.models.length ≤ cfg.maxLoaded)
    (hok : (executeRequest cfg engine files faults w request).2.2.1.ok = true) :
    ∃ m ins, (executeRequest cfg engine files faults w request).2.2.2 = .ran m ins (some control) id ∧
      RunsOn engine history request control id m ins (executeRequest cfg engine files faults w request).2.2.1 := by
  have hid : id ≠ 0 := fun h0 => parse_resident_control_state hc (h0 ▸ hstate)
  have hreq : executeRequest cfg engine files faults w request =
      (files, executeTargeted cfg engine files faults w request) := by
    rw [executeRequest, if_neg (by rw [hop]; decide), if_pos (by rw [hop]; decide)]
  rw [hreq] at hok ⊢
  rw [executeTargeted] at hok ⊢
  split at hok
  · cases hok
  next path hpath =>
    rw [if_neg (by rw [hop]; decide), if_pos (.inl hop)] at hok ⊢
    rw [executeResident] at hok ⊢
    split at hok
    · cases hok
    next hcache =>
      rw [if_neg (by rw [hop]; decide), hc] at hok
      rw [if_neg hcache, if_neg (by rw [hop]; decide), hc]
      dsimp only at hok ⊢
      obtain ⟨rest, e, -, heq⟩ | ⟨m, rest, held, hs, -, -, heq⟩ := withModel_cases files faults request path
        (useRun cfg engine request faults (some control)) h hlen
      · rw [heq] at hok
        cases hok
      · rw [heq] at hok ⊢
        obtain ⟨ins, hout, hrun⟩ := useRun_runsOn hstate hid hs hok
        exact ⟨m, ins, hout, hrun⟩

end Onnxsim.Axcl.Answers
