import Onnxsim.Axcl.Modes

namespace Onnxsim.Axcl.Contract

open List Lib.Bytes Lib.Runs Wire.Messages Storage.Pool
open Controls Models Running Ledger Caching
open Holding Soundness Answers Refusals Modes

variable {cfg : Config} {engine : Engine} {files : Files} {faults : Faults} {request : Request} {w w' : World}
  {e : Event} {firstStateId : Nat}

def issuedId : Record → Option Nat
  | .reset id _ => some id
  | .issued id _ _ _ => some id
  | .continued _ _ _ => none

def issuedIds (history : List Record) : List Nat := history.filterMap issuedId

theorem id_of_issuedId {r : Record} {id : Nat} (h : issuedId r = some id) : r.id = id := by
  cases r with
  | reset id' image => exact Option.some.inj h
  | issued id' image inputs ws => exact Option.some.inj h
  | continued id' inputs ws => cases h

theorem issuedIds_react (hw : WorldSound cfg engine w) (h : (issuedIds w.history).Nodup) :
    (issuedIds (react cfg engine w (.request request faults)).1.history).Nodup := by
  have htells : Tells w.history w.worker.nextStateId request
      (executeRequest cfg engine w.files faults w.worker request).2.2.1
      (executeRequest cfg engine w.files faults w.worker request).2.2.2 := executeRequest_tells hw.sound hw.count
  obtain ⟨outcome, ho⟩ : ∃ outcome,
      (executeRequest cfg engine w.files faults w.worker request).2.2.2 = outcome := ⟨_, rfl⟩
  rw [ho] at htells
  rw [react]
  rw [ho]
  cases hr : record request outcome with
  | none => exact h
  | some r =>
    have hcons : issuedIds ((some r).toList ++ w.history) = (issuedId r).toList ++ issuedIds w.history := by
      rw [issuedIds, Option.toList_some, singleton_append, filterMap_cons]
      cases issuedId r <;> rfl
    rw [hcons]
    cases hi : issuedId r with
    | none => exact h
    | some id =>
      have hid : id = w.worker.nextStateId := by
        cases htells.issued r hr with
        | inl hcont =>
          obtain ⟨inputs, writes, heq⟩ := hcont
          rw [heq] at hi
          cases hi
        | inr hnext => exact (id_of_issuedId hi).symm.trans hnext
      refine nodup_cons.mpr ⟨fun hmem => ?_, h⟩
      obtain ⟨r', hr', hid'⟩ := mem_filterMap.mp hmem
      have hlt := hw.sound.recorded r' hr'
      rw [id_of_issuedId hid', hid] at hlt
      exact Nat.lt_irrefl _ hlt

theorem issuedIds_run (h : Run (step cfg engine) CanIssue (World.start files firstStateId) w) :
    (issuedIds w.history).Nodup := by
  have hstep : ∀ u v a, WorldSound cfg engine u ∧ (issuedIds u.history).Nodup → CanIssue u a →
      step cfg engine u a = some v → WorldSound cfg engine v ∧ (issuedIds v.history).Nodup := by
    intro u v a hu hcan hs
    refine ⟨worldSound_step hcan hu.1 hs, ?_⟩
    cases hs
    cases a with
    | replace path file => exact hu.2
    | request request faults => exact issuedIds_react hu.1 hu.2
  exact (h.induct ⟨worldSound_start, nodup_nil⟩ hstep).2

/-- The answer to a request in a world, and what becomes of it. -/
def response (cfg : Config) (engine : Engine) (w : World) (request : Request) (faults : Faults) : Response :=
  (executeRequest cfg engine w.files faults w.worker request).2.2.1

def outcome (cfg : Config) (engine : Engine) (w : World) (request : Request) (faults : Faults) : Outcome :=
  (executeRequest cfg engine w.files faults w.worker request).2.2.2

def after (cfg : Config) (engine : Engine) (w : World) (request : Request) (faults : Faults) : World :=
  (react cfg engine w (.request request faults)).1

/-- What the worker owes its clients when it answers a request:
a request on a state runs the model of the state, with what the history of the state makes of the inputs that it keeps;
ids are told, and not issued twice; no more models are held than allowed, nor while one is loaded. -/
structure Owed (cfg : Config) (engine : Engine) (w : World) (request : Request) (faults : Faults) : Prop where
  resumed : ∀ control id, request.op = ascii "run_resident" →
    parse_resident_control request.artifact = .ok control → control.state = some id →
      (response cfg engine w request faults).ok = true →
        ∃ (m : LoadedModel) (ins contents : List ByteString), outcome cfg engine w request faults = .ran m ins (some control) id ∧
          ledger engine w.history id = some ⟨m.image, contents⟩ ∧
          (∀ (i : Nat) (t : Tensor), request.inputs[i]? = some t → sourceBytes t = [] → ins[i]? = contents[i]?) ∧
          RunsOn engine w.history request control id m ins (response cfg engine w request faults)
  told : ∀ r, record request (outcome cfg engine w request faults) = some r →
    (response cfg engine w request faults).manifest = stateManifest r.id
  once : (issuedIds (after cfg engine w request faults).history).Nodup
  count : (after cfg engine w request faults).worker.models.length ≤ cfg.maxLoaded
  loading : ∀ (files : Files) path models held,
    held ∈ heldAtLoads (loadModel engine files faults path) (files path).isSome 0 (makeRoom cfg models).reverse →
      held.length + 1 ≤ cfg.maxLoaded

theorem getElem?_replaced {cs : List ByteString} {ts : List Tensor} {i : Nat} {t : Tensor} (ht : ts[i]? = some t)
    (hkeep : sourceBytes t = []) : (replaced cs (ts.map sent))[i]? = cs[i]? := by
  rw [replaced, getElem?_zipWith, getElem?_map, ht, Option.map_some, sent, if_pos hkeep]
  cases cs[i]? <;> rfl

theorem owed (hw : WorldSound cfg engine w) (hcan : CanIssue w (.request request faults))
    (honce : (issuedIds w.history).Nodup) : Owed cfg engine w request faults where
  resumed control id hop hc hstate hok := by
    obtain ⟨m, ins, hout, hrun⟩ := executeRequest_runsOn hop hc hstate hw.sound hw.count hok
    obtain ⟨contents, hledger, hins⟩ := hrun.held
    refine ⟨m, ins, contents, hout, hledger, fun i t ht hkeep => ?_, hrun⟩
    rw [hins]
    exact getElem?_replaced ht hkeep
  told := (executeRequest_tells hw.sound hw.count).manifest
  once := issuedIds_react hw honce
  count := (worldSound_step hcan hw rfl).count
  loading _ _ _ _ h := length_heldAtLoads h

/-- There is an id to issue, and copies fail on the device where they do through the host. -/
def Comparable (w : World) (e : Event) : Prop :=
  CanIssue w e ∧ ∀ request faults, e = .request request faults → RowsFailAlike faults

/-- Two worlds that differ in the host's copies at most. -/
structure WorldsAlike (w w' : World) : Prop where
  files : w.files = w'.files
  workers : WorkersAlike w.worker w'.worker
  history : w.history = w'.history

theorem react_alike {h d : World} (hfail : RowsFailAlike faults) (hs : WorldSound (hostMode cfg) engine h)
    (hw : WorldsAlike d h) :
    AnswersAlike request (executeRequest (deviceMode cfg) engine d.files faults d.worker request).2
        (executeRequest (hostMode cfg) engine h.files faults h.worker request).2 ∧
      WorldsAlike (after (deviceMode cfg) engine d request faults) (after (hostMode cfg) engine h request faults) := by
  have hboth : (executeRequest (deviceMode cfg) engine h.files faults d.worker request).1 =
      (executeRequest (hostMode cfg) engine h.files faults h.worker request).1 ∧
        AnswersAlike request (executeRequest (deviceMode cfg) engine h.files faults d.worker request).2
          (executeRequest (hostMode cfg) engine h.files faults h.worker request).2 :=
    executeRequest_alike hfail hw.workers hs.sound
  rw [after, after, react, react, hw.files, hw.history]
  refine ⟨hboth.2, hboth.1, hboth.2.workers, ?_⟩
  rw [hboth.2.record]

theorem step_alike {h d h' d' : World} (hs : WorldSound (hostMode cfg) engine h) (hcan : Comparable h e)
    (hw : WorldsAlike d h) (hstep : step (hostMode cfg) engine h e = some h')
    (dstep : step (deviceMode cfg) engine d e = some d') : WorldsAlike d' h' := by
  cases hstep
  cases dstep
  cases e with
  | replace path file =>
    refine ⟨?_, hw.workers, hw.history⟩
    rw [react, react, hw.files]
  | request request faults => exact (react_alike (hcan.2 request faults rfl) hs hw).2

theorem trace_alike {es : List Event} {h d : World}
    (hh : Trace (fun e u v => Comparable u e ∧ step (hostMode cfg) engine u e = some v) es
      (World.start files firstStateId) h)
    (hd : Trace (fun e u v => step (deviceMode cfg) engine u e = some v) es (World.start files firstStateId) d) :
    WorldSound (hostMode cfg) engine h ∧ WorldsAlike d h := by
  refine hh.simulates (R := fun h d => WorldSound (hostMode cfg) engine h ∧ WorldsAlike d h) ?_ hd
    ⟨worldSound_start, rfl, ⟨rfl, rfl⟩, rfl⟩
  intro e u u' t t' hcan hu ht hR
  exact ⟨worldSound_step hcan.1 hR.1 hu, step_alike hR.1 hcan hR.2 hu ht⟩

/-- In every world that a run reaches the worker owes its clients what it should, and what they get of outputs is the
same in both modes; a refused request leaves files and worker alone exactly when it disturbs nothing on the way. -/
theorem resident_contract (h : Run (step cfg engine) CanIssue (World.start files firstStateId) w)
    (hcan : CanIssue w (.request request faults)) :
    Owed cfg engine w request faults ∧
      (outcome cfg engine w request faults = .refused →
        ((after cfg engine w request faults).files = w.files ∧ (after cfg engine w request faults).worker = w.worker ↔
          Undisturbed cfg engine w.files faults w.worker request)) ∧
      ∀ es host device,
        Trace (fun e u v => Comparable u e ∧ step (hostMode cfg) engine u e = some v) es
          (World.start files firstStateId) host →
        Trace (fun e u v => step (deviceMode cfg) engine u e = some v) es (World.start files firstStateId) device →
        RowsFailAlike faults →
          (response (deviceMode cfg) engine device request faults).ok =
              (response (hostMode cfg) engine host request faults).ok ∧
            (response (deviceMode cfg) engine device request faults).outputs =
              (response (hostMode cfg) engine host request faults).outputs := by
  refine ⟨owed (worldSound_run h) hcan (issuedIds_run h), executeRequest_refusesCleanly, ?_⟩
  intro es host device hh hd hfail
  obtain ⟨hs, halike⟩ := trace_alike hh hd
  have hanswers : AnswersAlike request (executeRequest (deviceMode cfg) engine device.files faults device.worker request).2
      (executeRequest (hostMode cfg) engine host.files faults host.worker request).2 := (react_alike hfail hs halike).1
  exact ⟨hanswers.ok, hanswers.outputs⟩

def copying : Engine where
  inputs _ := [⟨[120], 15, [1], 4⟩]
  outputs _ := [⟨[121], 15, [1], 4⟩]
  execute _ ins := [(ins.headD []).takeD 4 0]
  execute_sizes _ ins := by simp

def single : Config := ⟨true, 1, Nat.one_pos, true, []⟩

def onlyA : Files := fun path => if path = ascii "a" then some ⟨0, 1, [7]⟩ else none

def sure : Faults where
  load _ := none
  fresh _ _ _ := 0
  createDir := none
  publish := none
  published := 0
  clear _ := false
  arena := false
  upload _ := false
  execute := false
  row _ := false
  rowDown _ := false
  rowUp _ := false
  download _ := false

def resetA : Request := { op := ascii "reset_state", model := ascii "a" }

def missing : Request := { op := ascii "io_info", model := ascii "b" }

def resumeA : Request :=
  { op := ascii "run_resident", model := ascii "a", artifact := ascii "state 1", inputs := [{ dtype := 1, shape := [1] }] }

def begun : World := after single copying (World.start onlyA 1) resetA sure

theorem begun_run : Lib.Runs.Run (step single copying) CanIssue (World.start onlyA 1) begun := by
  have hcan : CanIssue (World.start onlyA 1) (.request resetA sure) := by
    rw [CanIssue]
    decide
  exact Lib.Runs.Run.refl.tail hcan rfl

theorem begun_canIssue (e : Event) : CanIssue begun e := by
  rw [CanIssue]
  decide

theorem resident_contract_begun :
    (response single copying begun resumeA sure).ok = true ∧ Owed single copying begun resumeA sure :=
  ⟨by decide, (resident_contract begun_run (begun_canIssue _)).1⟩

/-- The refused request for a missing model has cost the first client its state. -/
theorem missing_model_evicts :
    Lib.Runs.Run (step single copying) CanIssue (World.start onlyA 1) begun ∧
      outcome single copying begun missing sure = .refused ∧
        (response single copying begun resumeA sure).ok = true ∧
          (response single copying (after single copying begun missing sure) resumeA sure).ok = false :=
  ⟨begun_run, rfl, by decide, by decide⟩

/-- No two models that are held share a state, and each state is what its requests have made of it. -/
theorem held_states (h : Run (step cfg engine) CanIssue (World.start files firstStateId) w) :
    w.worker.models.length ≤ cfg.maxLoaded ∧ w.worker.models.Pairwise StatesApart ∧
      ∀ m ∈ w.worker.models, m.stateId ≠ 0 → m.stateId < w.worker.nextStateId ∧
        ledger engine w.history m.stateId = some ⟨m.image, m.contents⟩ := by
  have hw := worldSound_run h
  exact ⟨hw.count, hw.sound.apart, fun m hm hne => ⟨hw.sound.below m hm hne, hw.sound.stated m hm hne⟩⟩

theorem held_states_begun : ∃ m ∈ begun.worker.models,
    m.stateId ≠ 0 ∧ ledger copying begun.history m.stateId = some ⟨m.image, m.contents⟩ :=
  ⟨_, .head _, by decide, ((held_states begun_run).2.2 _ (.head _) (by decide)).2⟩

end Onnxsim.Axcl.Contract
