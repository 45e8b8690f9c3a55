import Onnxsim.Axcl.Soundness

namespace Onnxsim.Axcl.Modes

open List Lib.Bytes Lib.Memories Lib.Results Wire.Messages Storage.Pool
open Controls Models Running Ledger Transfers
open Runs Caching Holding Refusals Soundness

variable {engine : Engine} {files : Files} {faults : Faults} {request : Request} {path : ByteString}
  {resident : Option ResidentControl} {next : Nat} {m m' : LoadedModel} {models models' : List LoadedModel}

/-- The same worker with rows copied on the device, and with rows copied through the host. -/
def deviceMode (cfg : Config) : Config := { cfg with rowCopyOnDevice := true }
def hostMode (cfg : Config) : Config := { cfg with rowCopyOnDevice := false }

/-- A copy on the device fails where one of its two calls through the host does. -/
def RowsFailAlike (faults : Faults) : Prop := ∀ k, faults.row k = (faults.rowDown k || faults.rowUp k)

def forget (m : LoadedModel) : LoadedModel := { m with shadow := [] }

theorem eq_of_forget (h : forget m = forget m') : m = { m' with shadow := m.shadow } := by
  cases m
  cases m'
  simp only [forget, LoadedModel.mk.injEq] at h
  simp [h]

section

variable {mem : Memory Buffer Byte} {us : List (Option ByteString)} {s : List ByteString} {i : Nat}

theorem writeInputs_withShadow {skip fails : Nat → Bool} {error : ByteString} :
    writeInputs { m with shadow := s } skip fails error i us mem = writeInputs m skip fails error i us mem := by
  induction us generalizing i mem with
  | nil => rfl
  | cons u us ih =>
    cases u with
    | none => exact ih
    | some src =>
      rw [writeInputs, writeInputs, ih, ih]
      rfl

theorem stage_withShadow : stage { m with shadow := s } i us mem = stage m i us mem := by
  induction us generalizing i mem with
  | nil => rfl
  | cons u us ih =>
    rw [stage, stage, ih]
    rfl

theorem upload_withShadow : upload { m with shadow := s } faults us mem = upload m faults us mem := by
  have hwrite : ∀ skip error mem', writeInputs { m with shadow := s } skip faults.upload error 0 us mem' =
      writeInputs m skip faults.upload error 0 us mem' := fun _ _ _ => writeInputs_withShadow
  rw [upload, upload, stage_withShadow, hwrite, hwrite]
  rfl

theorem writeRows_withShadow {ws : List RowWrite} {k : Nat} {shadow : List ByteString} :
    writeRows { m with shadow := s } true faults k ws mem shadow = writeRows m true faults k ws mem shadow := by
  induction ws generalizing k mem with
  | nil => rfl
  | cons w ws ih =>
    rw [writeRows, writeRows, if_pos rfl, if_pos rfl, ih]
    rfl

theorem download_withShadow {omits : List Nat} {ts : List Tensor} :
    download { m with shadow := s } faults omits mem i ts = download m faults omits mem i ts := by
  induction ts generalizing i with
  | nil => rfl
  | cons t ts ih =>
    rw [download, download, ih]
    rfl

variable {ws : List RowWrite} {shadow : List ByteString} {k : Nat}

theorem writeRows_shadow : writeRows m true faults k ws mem shadow =
    (writeRows m true faults k ws mem []).map fun r => (r.1, shadow) := by
  induction ws generalizing k mem with
  | nil => rfl
  | cons w ws ih =>
    rw [writeRows, writeRows, if_pos rfl, if_pos rfl]
    split
    · rfl
    · exact ih

theorem throughHost_eq (h : RowsFailAlike faults) : throughHost faults = faults := by
  have hrow : (fun k => faults.rowDown k || faults.rowUp k) = faults.row := funext fun k => (h k).symm
  rw [throughHost, hrow]

variable {cfg : Config} {shells : List Tensor}

/-- Two results of the part after the checks that differ in the host's copies at most. -/
def Alike (r r' : Except ByteString (LoadedModel × Nat × List ByteString × List Tensor)) : Prop :=
  r.map (fun x => (forget x.1, x.2)) = r'.map fun x => (forget x.1, x.2)

variable (hfail : RowsFailAlike faults) (hp : Passed m request resident us shells) (hd : Described engine m)
  (hm : Mirrored (hostMode cfg) m) (hcont : continues resident = true → m.stateId ≠ 0)

include hfail hp hd hm hcont

theorem writeRows_alike {mem : Memory Buffer Byte} (hheld : m.held mem = replaced m.contents us) :
    (writeRows m false faults 0 (writesOf resident) (writeOutputs 0 (engine.execute m.image (m.held mem)) mem)
        (shadowed (hostMode cfg) m resident us)).map Prod.fst =
      (writeRows m true faults 0 (writesOf resident) (writeOutputs 0 (engine.execute m.image (m.held mem)) mem)
        []).map Prod.fst := by
  cases resident with
  | none => rfl
  | some control =>
    have hshadow := shadowed_eq hm rfl rfl hcont hp.full
    rw [writeRows_host hp.fits (outputsHeld_writeOutputs hd) (by rw [hshadow, writeOutputs_input, hheld]),
      throughHost_eq hfail]
    cases writeRows m true faults 0 (writesOf (some control))
      (writeOutputs 0 (engine.execute m.image (m.held mem)) mem) [] <;> rfl

theorem perform_alike :
    Alike (perform (deviceMode cfg) engine { m with shadow := s } faults resident next us shells)
      (perform (hostMode cfg) engine m faults resident next us shells) := by
  rw [Alike, perform, perform, upload_withShadow]
  cases hmem : upload m faults us m.memory with
  | error e => rfl
  | ok mem =>
    have hheld : m.held mem = replaced m.contents us := upload_held hp.sized hp.length hmem
    have hran : ({ m with shadow := s } : LoadedModel).held mem = m.held mem := rfl
    rw [ok_bind rfl, ok_bind rfl, hran]
    by_cases hex : faults.execute = true
    · rw [if_pos hex, if_pos hex]
    · rw [if_neg hex, if_neg hex]
      have hrows := writeRows_alike hfail hp hd hm hcont hheld
      have hdev : ∀ mem' shadow', writeRows { m with shadow := s } (deviceMode cfg).rowCopyOnDevice faults 0
          (writesOf resident) mem' shadow' =
            (writeRows m true faults 0 (writesOf resident) mem' []).map fun r => (r.1, shadow') :=
        fun _ _ => writeRows_withShadow.trans writeRows_shadow
      have hhost : (hostMode cfg).rowCopyOnDevice = false := rfl
      have hdown : ∀ mem', download { m with shadow := s } faults (omitsOf resident) mem' 0 shells =
          download m faults (omitsOf resident) mem' 0 shells := fun _ => download_withShadow
      simp only [hdev, hhost, hdown]
      cases hh : writeRows m false faults 0 (writesOf resident)
          (writeOutputs 0 (engine.execute m.image (m.held mem)) mem) (shadowed (hostMode cfg) m resident us) with
      | error e =>
        rw [hh] at hrows
        cases hd' : writeRows m true faults 0 (writesOf resident)
            (writeOutputs 0 (engine.execute m.image (m.held mem)) mem) [] with
        | error e' =>
          rw [hd'] at hrows
          cases hrows
          rfl
        | ok r =>
          rw [hd'] at hrows
          cases hrows
      | ok r =>
        rw [hh] at hrows
        cases hd' : writeRows m true faults 0 (writesOf resident)
            (writeOutputs 0 (engine.execute m.image (m.held mem)) mem) [] with
        | error e =>
          rw [hd'] at hrows
          cases hrows
        | ok r' =>
          rw [hd'] at hrows
          have hmems : r.1 = r'.1 := Except.ok.inj hrows
          rw [ok_bind rfl]
          simp only [Except.map, hmems]
          rw [ok_bind rfl]
          cases download m faults (omitsOf resident) r'.1 0 shells <;> rfl

end

variable {cfg : Config}

/-- Two uses of a model that differ in the host's copies at most. -/
structure UsedAlike (request : Request) (u u' : Used) : Prop where
  model : u.model.map forget = u'.model.map forget
  next : u.next = u'.next
  response : u.response = u'.response
  record : record request u.outcome = record request u'.outcome

theorem useInfo_alike (h : forget m = forget m') :
    UsedAlike request (useInfo (deviceMode cfg) request path m next) (useInfo (hostMode cfg) request path m' next) := by
  obtain ⟨s, rfl⟩ : ∃ s, m = { m' with shadow := s } := ⟨_, eq_of_forget h⟩
  have hman : ioInfoManifest (deviceMode cfg) path { m' with shadow := s } = ioInfoManifest (hostMode cfg) path m' := by
    simp only [ioInfoManifest, deviceMode, hostMode]
  rw [useInfo, useInfo, hman]
  split
  · exact ⟨rfl, rfl, rfl, rfl⟩
  · exact ⟨rfl, rfl, rfl, rfl⟩

theorem useReset_alike (h : forget m = forget m') :
    UsedAlike request (useReset (deviceMode cfg) request faults m next) (useReset (hostMode cfg) request faults m' next) := by
  obtain ⟨s, rfl⟩ : ∃ s, m = { m' with shadow := s } := ⟨_, eq_of_forget h⟩
  have hzeros : zeros { m' with shadow := s } = zeros m' := rfl
  rw [useReset, useReset, resetState, resetState, writeInputs_withShadow, hzeros]
  cases writeInputs m' (fun _ => false) faults.clear (ascii "AXCL input clear failed") 0 ((zeros m').map some)
      m'.memory with
  | error e => exact ⟨rfl, rfl, rfl, rfl⟩
  | ok mem => exact ⟨rfl, rfl, rfl, rfl⟩

theorem useRun_alike (hfail : RowsFailAlike faults) (hzero : resident.bind ResidentControl.state ≠ some 0)
    (h : forget m = forget m') (hd : Described engine m') (hm : Mirrored (hostMode cfg) m') :
    UsedAlike request (useRun (deviceMode cfg) engine request faults resident m next)
      (useRun (hostMode cfg) engine request faults resident m' next) := by
  obtain ⟨s, rfl⟩ : ∃ s, m = { m' with shadow := s } := ⟨_, eq_of_forget h⟩
  have hcheck : check { m' with shadow := s } request resident = check m' request resident := rfl
  rw [useRun, useRun, runLoaded, runLoaded, hcheck]
  cases hc : check m' request resident with
  | error e => exact ⟨rfl, rfl, rfl, rfl⟩
  | ok checked =>
    have hp : Passed m' request resident checked.1 checked.2 := check_eq_ok hc
    have hcont : continues resident = true → m'.stateId ≠ 0 := by
      intro hcs h0
      obtain ⟨id, hid⟩ := Option.isSome_iff_exists.mp hcs
      rw [hp.state hid] at h0
      exact hzero (h0 ▸ hid)
    have halike : Alike (perform (deviceMode cfg) engine { m' with shadow := s } faults resident next checked.1 checked.2)
        (perform (hostMode cfg) engine m' faults resident next checked.1 checked.2) :=
      perform_alike hfail hp hd hm hcont
    revert halike
    dsimp only
    cases perform (deviceMode cfg) engine { m' with shadow := s } faults resident next checked.1 checked.2 with
    | error e =>
      cases perform (hostMode cfg) engine m' faults resident next checked.1 checked.2 with
      | error e' =>
        intro halike
        cases halike
        exact ⟨rfl, rfl, rfl, rfl⟩
      | ok r' =>
        intro halike
        cases halike
    | ok r =>
      cases perform (hostMode cfg) engine m' faults resident next checked.1 checked.2 with
      | error e' =>
        intro halike
        cases halike
      | ok r' =>
        intro halike
        have hpair : (forget r.1, r.2) = (forget r'.1, r'.2) := Except.ok.inj halike
        obtain ⟨hfst, hsnd⟩ := Prod.mk.inj hpair
        have hforgotten : (forget r.1).stateId = (forget r'.1).stateId := by rw [hfst]
        have hid : r.1.stateId = r'.1.stateId := hforgotten
        dsimp only
        rw [hsnd, hid]
        refine ⟨congrArg some hfst, rfl, rfl, ?_⟩
        cases resident with
        | none => rfl
        | some control => rfl

theorem loadModel_forget {k : Nat} (h : loadModel engine files faults path k = .ok m) : forget m = m := by
  rw [loadModel] at h
  split at h
  · cases h
  · split at h
    · cases h
    · split at h
      · cases h
      · dsimp only at h
        split at h
        · cases h
        · cases h
          rfl

theorem loadRetrying_forget {load : Nat → Except ByteString LoadedModel} {isFile : Bool} {k : Nat} :
    loadRetrying load isFile k (models.map forget) =
      ((loadRetrying load isFile k models).1.map forget, (loadRetrying load isFile k models).2) := by
  induction models generalizing k with
  | nil => rfl
  | cons c models ih =>
    rw [map_cons, loadRetrying, loadRetrying]
    cases load k with
    | ok m => rfl
    | error e =>
      dsimp only
      split
      · exact ih
      · rfl

theorem loadCached_forget (cfg : Config) : loadCached cfg engine files faults path (models.map forget) =
    ((loadCached cfg engine files faults path models).1.map forget,
      (loadCached cfg engine files faults path models).2.map forget) := by
  have hres : (loadCached cfg engine files faults path models).2.map forget =
      (loadCached cfg engine files faults path models).2 := by
    have hcases := loadRetrying_cases (loadModel engine files faults path) (files path).isSome 0
      (makeRoom cfg models).reverse
    cases hr : (loadCached cfg engine files faults path models).2 with
    | error e => rfl
    | ok m =>
      obtain ⟨n, hn⟩ := hcases.2 m hr
      exact congrArg Except.ok (loadModel_forget hn)
  rw [hres, loadCached, loadCached, makeRoom, makeRoom, ← map_take, ← map_reverse, loadRetrying_forget]
  rw [map_reverse]

theorem acquireCached_forget (cfg : Config) : acquireCached cfg engine files faults path (models.map forget) =
    ((acquireCached cfg engine files faults path models).1.map forget,
      (acquireCached cfg engine files faults path models).2.map forget) := by
  have hkey : (fun m : LoadedModel => decide (m.key = path)) ∘ forget = fun m => decide (m.key = path) := rfl
  rw [acquireCached, acquireCached, find?_map, eraseP_map, hkey]
  cases models.find? (fun m => decide (m.key = path)) with
  | none => exact loadCached_forget cfg
  | some m =>
    have hcur : isCurrent files (forget m) = isCurrent files m := rfl
    rw [Option.map_some]
    dsimp only
    rw [hcur]
    split
    · rfl
    · exact loadCached_forget cfg

theorem acquireCached_alike (cfg : Config) (engine : Engine) (files : Files) (faults : Faults) (path : ByteString)
    (h : models.map forget = models'.map forget) :
    (acquireCached (deviceMode cfg) engine files faults path models).1.map forget =
        (acquireCached (hostMode cfg) engine files faults path models').1.map forget ∧
      (acquireCached (deviceMode cfg) engine files faults path models).2.map forget =
        (acquireCached (hostMode cfg) engine files faults path models').2.map forget := by
  have hd : acquireCached (deviceMode cfg) engine files faults path models =
      acquireCached cfg engine files faults path models := rfl
  have hh : acquireCached (hostMode cfg) engine files faults path models' =
      acquireCached cfg engine files faults path models' := rfl
  have heq : acquireCached cfg engine files faults path (models.map forget) =
      acquireCached cfg engine files faults path (models'.map forget) := by rw [h]
  rw [acquireCached_forget, acquireCached_forget] at heq
  rw [hd, hh]
  exact Prod.mk.inj heq

variable {history : List Record} {w w' : Worker}

/-- Two workers that differ in the host's copies at most. -/
structure WorkersAlike (w w' : Worker) : Prop where
  models : w.models.map forget = w'.models.map forget
  next : w.nextStateId = w'.nextStateId

/-- What a client is answered, apart from what the manifest says of the worker. -/
structure AnswersAlike (request : Request) (r r' : Worker × Response × Outcome) : Prop where
  workers : WorkersAlike r.1 r'.1
  ok : r.2.1.ok = r'.2.1.ok
  error : r.2.1.error = r'.2.1.error
  outputs : r.2.1.outputs = r'.2.1.outputs
  record : record request r.2.2 = record request r'.2.2

theorem withModel_alike {use use' : LoadedModel → Nat → Used} (hw : WorkersAlike w w')
    (hs : Sound (hostMode cfg) engine history w'.nextStateId w'.models)
    (huse : ∀ m m' next, forget m = forget m' → Described engine m' → Mirrored (hostMode cfg) m' →
      UsedAlike request (use m next) (use' m' next)) :
    AnswersAlike request (withModel (deviceMode cfg) engine files faults w request path use)
      (withModel (hostMode cfg) engine files faults w' request path use') := by
  rw [withModel, withModel]
  by_cases hcache : cfg.useCache = true
  · have hdevice : (deviceMode cfg).useCache = true := hcache
    have hhost : (hostMode cfg).useCache = true := hcache
    rw [if_pos hdevice, if_pos hhost]
    have halike := acquireCached_alike cfg engine files faults path hw.models
    have hcases := acquireCached_cases (hostMode cfg) engine files faults path w'.models
    obtain ⟨rest, res, hr⟩ : ∃ rest res,
        acquireCached (deviceMode cfg) engine files faults path w.models = (rest, res) := ⟨_, _, rfl⟩
    obtain ⟨rest', res', hr'⟩ : ∃ rest res,
        acquireCached (hostMode cfg) engine files faults path w'.models = (rest, res) := ⟨_, _, rfl⟩
    rw [hr, hr'] at halike
    rw [hr'] at hcases
    rw [hr, hr']
    cases res with
    | error e =>
      cases res' with
      | error e' =>
        cases halike.2
        exact ⟨⟨halike.1, hw.next⟩, rfl, rfl, rfl, rfl⟩
      | ok m' => cases halike.2
    | ok m =>
      cases res' with
      | error e' => cases halike.2
      | ok m' =>
        have hforget : forget m = forget m' := Except.ok.inj halike.2
        have hm : Described engine m' ∧ Mirrored (hostMode cfg) m' := by
          cases hcases with
          | inl hfound =>
            obtain ⟨m'', heq, hperm⟩ := hfound
            cases heq
            have hmem : m' ∈ w'.models := hperm.subset mem_cons_self
            exact ⟨hs.described m' hmem, hs.mirrored m' hmem⟩
          | inr hloaded =>
            have hfresh := hloaded.2.2 m' rfl
            exact ⟨hfresh.described, fun _ hne => absurd hfresh.stateless hne⟩
        have hu := huse m m' w'.nextStateId hforget hm.1 hm.2
        have hopt : ∀ o : Option LoadedModel, o.toList.map forget = (o.map forget).toList := fun o => by cases o <;> rfl
        rw [hw.next]
        dsimp only
        refine ⟨⟨?_, hu.next⟩, by rw [hu.response], by rw [hu.response], by rw [hu.response], hu.record⟩
        rw [map_append, map_append, hopt, hopt, hu.model, halike.1]
  · have hdevice : ¬ (deviceMode cfg).useCache = true := hcache
    have hhost : ¬ (hostMode cfg).useCache = true := hcache
    rw [if_neg hdevice, if_neg hhost, hw.next]
    cases hload : loadModel engine files faults path 0 with
    | error e => exact ⟨hw, rfl, rfl, rfl, rfl⟩
    | ok m =>
      have hfresh := loadModel_eq_ok hload
      have hu := huse m m w'.nextStateId rfl hfresh.described fun _ hne => absurd hfresh.stateless hne
      dsimp only
      exact ⟨⟨hw.models, hu.next⟩, by rw [hu.response], by rw [hu.response], by rw [hu.response], hu.record⟩

theorem unloadTarget_alike (hw : WorkersAlike w w') :
    AnswersAlike request (unloadTarget w request path) (unloadTarget w' request path) := by
  refine ⟨⟨?_, hw.next⟩, rfl, rfl, rfl, rfl⟩
  have herase : ∀ models : List LoadedModel, (if path = [] then [] else models.eraseP (·.key = path)).map forget =
      if path = [] then [] else (models.map forget).eraseP (·.key = path) := by
    intro models
    split
    · rfl
    · rw [eraseP_map]
      rfl
  exact (herase w.models).trans ((hw.models ▸ rfl : _ = _).trans (herase w'.models).symm)

theorem uses_alike {use : Config → LoadedModel → Nat → Used} (huse : Uses engine faults request path use)
    (hfail : RowsFailAlike faults) (h : forget m = forget m') (hd : Described engine m')
    (hm : Mirrored (hostMode cfg) m') :
    UsedAlike request (use (deviceMode cfg) m next) (use (hostMode cfg) m' next) := by
  cases huse with
  | info => exact useInfo_alike h
  | reset => exact useReset_alike h
  | run resident hzero => exact useRun_alike hfail hzero h hd hm

theorem executeRequest_alike (hfail : RowsFailAlike faults) (hw : WorkersAlike w w')
    (hs : Sound (hostMode cfg) engine history w'.nextStateId w'.models) :
    (executeRequest (deviceMode cfg) engine files faults w request).1 =
        (executeRequest (hostMode cfg) engine files faults w' request).1 ∧
      AnswersAlike request (executeRequest (deviceMode cfg) engine files faults w request).2
        (executeRequest (hostMode cfg) engine files faults w' request).2 := by
  obtain ⟨l, files', F, -, hserves, heq⟩ := executeRequest_serves cfg engine files faults request
  have hdevice : executeRequest (deviceMode cfg) engine files faults w request = (files', F (deviceMode cfg) w) := heq true w
  have hhost : executeRequest (hostMode cfg) engine files faults w' request = (files', F (hostMode cfg) w') := heq false w'
  rw [hdevice, hhost]
  refine ⟨rfl, ?_⟩
  cases hserves with
  | refused e => exact ⟨hw, rfl, rfl, rfl, rfl⟩
  | answered l files' id manifest => exact ⟨hw, rfl, rfl, rfl, rfl⟩
  | unloaded l path => exact unloadTarget_alike hw
  | used huse => exact withModel_alike hw hs fun _ _ _ => uses_alike huse hfail

end Onnxsim.Axcl.Modes
