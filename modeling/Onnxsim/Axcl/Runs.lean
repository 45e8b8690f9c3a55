import Onnxsim.Axcl.Transfers

namespace Onnxsim.Axcl.Runs

open List Option Lib.Bytes Lib.Memories Lib.Results Wire.Messages
open Controls Models Running Ledger Transfers

variable {cfg : Config} {engine : Engine} {m m' : LoadedModel} {request : Request} {faults : Faults}
  {resident : Option ResidentControl} {next next' : Nat} {us : List (Option ByteString)} {shells outputs : List Tensor}
  {ran : List ByteString}

section

/-- What a request that was not refused has been found to be. -/
structure Passed (m : LoadedModel) (request : Request) (resident : Option ResidentControl)
    (us : List (Option ByteString)) (shells : List Tensor) : Prop where
  inputs : request.inputs.length = m.inSpecs.length
  uploads : checkInputs resident.isSome 0 m.inSpecs request.inputs = .ok us
  control : ∀ c, resident = some c → checkResident m c us = .ok ()
  shells : prepareOutputs (omitsOf resident) 0 m.outSpecs = .ok shells

theorem check_eq_ok (h : check m request resident = .ok (us, shells)) : Passed m request resident us shells := by
  rw [check] at h
  split at h
  · cases h
  next hlen =>
    obtain ⟨us', hus, h⟩ := bind_eq_ok h
    cases resident with
    | none =>
      obtain ⟨u, -, h⟩ := bind_eq_ok h
      obtain ⟨ts, hts, h⟩ := bind_eq_ok h
      cases h
      exact ⟨(Classical.not_not.mp hlen).symm, hus, nofun, hts⟩
    | some control =>
      obtain ⟨u, hu, h⟩ := bind_eq_ok h
      obtain ⟨ts, hts, h⟩ := bind_eq_ok h
      cases h
      refine ⟨(Classical.not_not.mp hlen).symm, hus, fun c hc => ?_, hts⟩
      cases hc
      exact hu

theorem length_prepareOutputs {omits : List Nat} {i : Nat} {specs : List IoSpec} {ts : List Tensor}
    (h : prepareOutputs omits i specs = .ok ts) : ts.length = specs.length := by
  induction specs generalizing i ts with
  | nil =>
    cases h
    rfl
  | cons spec specs ih =>
    obtain ⟨t, ht, h⟩ := bind_eq_ok h
    obtain ⟨ts', hts, h⟩ := bind_eq_ok h
    cases h
    rw [length_cons, length_cons, ih hts]

theorem checkResident_eq_ok {control : ResidentControl} (h : checkResident m control us = .ok ()) :
    (∀ w ∈ control.writes, Fits m w) ∧ checkState m control us = .ok () := by
  obtain ⟨u, -, h⟩ := bind_eq_ok h
  obtain ⟨v, hws, h⟩ := bind_eq_ok h
  exact ⟨fun w hw => fits_of_checkWrite (ok_of_forM hws hw), h⟩

variable (h : Passed m request resident us shells)

include h

theorem Passed.fits : ∀ w ∈ writesOf resident, Fits m w := by
  cases resident with
  | none => exact fun w hw => absurd hw not_mem_nil
  | some control => exact (checkResident_eq_ok (h.control control rfl)).1

theorem Passed.state {id : Nat} (hid : resident.bind ResidentControl.state = some id) : m.stateId = id := by
  obtain ⟨control, rfl, hc⟩ := bind_eq_some_iff.mp hid
  have hs := (checkResident_eq_ok (h.control control rfl)).2
  rw [checkState, hc] at hs
  dsimp only at hs
  split at hs
  · cases hs
  next heq => exact (Classical.not_not.mp heq).symm

theorem Passed.nonzero (hzero : resident.bind ResidentControl.state ≠ some 0) (hc : continues resident = true) :
    m.stateId ≠ 0 := by
  intro h0
  obtain ⟨id, hid⟩ := isSome_iff_exists.mp hc
  rw [h.state hid] at h0
  exact hzero (h0 ▸ hid)

theorem Passed.full (hc : continues resident = false) : none ∉ us := by
  cases resident with
  | none => exact none_notMem_of_plain h.inputs h.uploads
  | some control =>
    have hs := (checkResident_eq_ok (h.control control rfl)).2
    have hnone : control.state = none := isSome_eq_false_iff.mp hc |> isNone_iff_eq_none.mp
    rw [checkState, hnone] at hs
    dsimp only at hs
    split at hs
    · cases hs
    next hmem => exact hmem

theorem Passed.length : us.length = m.inSpecs.length :=
  (checkInputs_sized h.inputs h.uploads).1

theorem Passed.sized : Sized m 0 us := by
  obtain ⟨hlen, hs⟩ := checkInputs_sized h.inputs h.uploads
  refine ⟨by rw [Nat.zero_add, hlen], fun k src hk => ?_⟩
  rw [Nat.zero_add]
  exact hs k src hk

end

/-- The descriptions that the model was loaded with are those of its file. -/
structure Described (engine : Engine) (m : LoadedModel) : Prop where
  inputs : m.inSpecs = engine.inputs m.image
  outputs : m.outSpecs = engine.outputs m.image

/-- While there is a state, the host's copies, where it keeps them, are what the device holds. -/
def Mirrored (cfg : Config) (m : LoadedModel) : Prop :=
  cfg.rowCopyOnDevice = false → m.stateId ≠ 0 → m.shadow = m.contents

theorem replaced_of_full {cs cs' : List ByteString} (hlen : cs.length = cs'.length) (hfull : none ∉ us) :
    replaced cs us = replaced cs' us := by
  induction us generalizing cs cs' with
  | nil => rw [replaced, replaced, zipWith_nil_right, zipWith_nil_right]
  | cons u us ih =>
    rw [mem_cons, not_or] at hfull
    cases cs with
    | nil =>
      rw [length_eq_zero_iff.mp hlen.symm]
    | cons c cs =>
      obtain ⟨c', cs', rfl⟩ := exists_cons_of_length_eq_add_one hlen.symm
      have hrest := ih (by simpa using hlen) hfull.2
      obtain ⟨src, hsrc⟩ := ne_none_iff_exists'.mp (Ne.symm hfull.1)
      simp only [replaced, zipWith_cons_cons, hsrc, getD_some] at hrest ⊢
      rw [hrest]

theorem outputsHeld_writeOutputs (hd : Described engine m) {mem : Memory Buffer Byte} {ins : List ByteString} :
    OutputsHeld m (writeOutputs 0 (engine.execute m.image ins) mem) (engine.execute m.image ins) := by
  intro j hj
  have hsizes := engine.execute_sizes m.image ins
  have hlen : (engine.execute m.image ins).length = m.outSpecs.length := by
    rw [hd.outputs]
    simpa using congrArg List.length hsizes
  have hjo : j < (engine.execute m.image ins).length := by omega
  have hget : (engine.execute m.image ins).getD j [] = (engine.execute m.image ins)[j] := by
    rw [getD_eq_getElem?_getD, getElem?_eq_getElem hjo, getD_some]
  have hsize : (engine.execute m.image ins)[j].length = m.outSize j := by
    rw [LoadedModel.outSize, hd.outputs, ← hsizes, getD_eq_getElem?_getD, getElem?_map,
      getElem?_eq_getElem hjo]
    rfl
  refine ⟨by rw [hget, hsize], ?_⟩
  have hread : read (writeOutputs 0 (engine.execute m.image ins) mem) (outputPointer (0 + j)) _ = _ :=
    writeOutputs_output hjo
  rw [Nat.zero_add, hsize] at hread
  rw [hread, hget]

/-- What a run that succeeded has done. -/
structure Performed (cfg : Config) (engine : Engine) (m : LoadedModel) (resident : Option ResidentControl) (next : Nat)
    (us : List (Option ByteString)) (shells : List Tensor) (m' : LoadedModel) (next' : Nat) (ran : List ByteString)
    (outputs : List Tensor) : Prop where
  executed : ran = replaced m.contents us
  contents : m'.contents = ((⟨m.image, m.contents⟩ : Resident).run engine us (writesOf resident)).contents
  returned : outputs = collect (omitsOf resident) (engine.execute m.image ran) 0 shells
  same : m'.key = m.key ∧ m'.image = m.image ∧ m'.inSpecs = m.inSpecs ∧ m'.outSpecs = m.outSpecs ∧
    m'.mtimeNs = m.mtimeNs ∧ m'.fileSize = m.fileSize
  stateId : m'.stateId = if resident.isSome && ! continues resident then next
    else if continues resident = true then m.stateId else 0
  issued : next' = if resident.isSome && ! continues resident then nextStateId next else next
  shadow : cfg.rowCopyOnDevice = false → resident.isSome = true → m'.shadow = m'.contents

theorem shadowed_eq (hm : Mirrored cfg m) (hhost : cfg.rowCopyOnDevice = false) (hres : resident.isSome = true)
    (hcont : continues resident = true → m.stateId ≠ 0) (hfull : continues resident = false → none ∉ us) :
    shadowed cfg m resident us = replaced m.contents us := by
  rw [shadowed, if_pos ⟨hres, hhost⟩]
  by_cases hc : continues resident = true
  · rw [if_pos hc, hm hhost (hcont hc)]
    rfl
  · rw [if_neg hc]
    exact replaced_of_full (by simp [LoadedModel.contents]) (hfull (Bool.eq_false_of_not_eq_true hc))

theorem writeRows_eq_ok {ws : List RowWrite} {outs shadow shadow' : List ByteString} {mem mem' : Memory Buffer Byte}
    {onDevice : Bool} (hws : ∀ w ∈ ws, Fits m w) (houts : OutputsHeld m mem outs)
    (hshadow : onDevice = false → shadow = m.held mem)
    (h : writeRows m onDevice faults 0 ws mem shadow = .ok (mem', shadow')) :
    m.held mem' = ws.foldl (applyWrite outs) (m.held mem) ∧ OutputsHeld m mem' outs ∧
      (onDevice = false → shadow' = m.held mem') := by
  cases onDevice with
  | true =>
    obtain ⟨hheld, ho, -⟩ := writeRows_device hws houts h
    exact ⟨hheld, ho, nofun⟩
  | false =>
    rw [writeRows_host hws houts (hshadow rfl)] at h
    cases hdev : writeRows m true (throughHost faults) 0 ws mem [] with
    | error e =>
      rw [hdev] at h
      cases h
    | ok r =>
      rw [hdev] at h
      cases h
      have hdev' : writeRows m true (throughHost faults) 0 ws mem [] = .ok (r.1, r.2) := hdev
      obtain ⟨hheld, ho, -⟩ := writeRows_device hws houts hdev'
      exact ⟨hheld, ho, fun _ => rfl⟩

theorem perform_eq_ok (hp : Passed m request resident us shells) (hd : Described engine m) (hm : Mirrored cfg m)
    (hcont : continues resident = true → m.stateId ≠ 0)
    (h : perform cfg engine m faults resident next us shells = .ok (m', next', ran, outputs)) :
    Performed cfg engine m resident next us shells m' next' ran outputs := by
  obtain ⟨mem, hup, h⟩ := bind_eq_ok h
  split at h
  · cases h
  · obtain ⟨rows, hrows, h⟩ := bind_eq_ok h
    obtain ⟨outs, hdown, h⟩ := bind_eq_ok h
    cases h
    have hheld : m.held mem = replaced m.contents us := upload_held hp.sized hp.length hup
    have hbefore : m.held (writeOutputs 0 (engine.execute m.image (m.held mem)) mem) = replaced m.contents us := by
      rw [writeOutputs_input, hheld]
    have houts : OutputsHeld m (writeOutputs 0 (engine.execute m.image (m.held mem)) mem)
        (engine.execute m.image (m.held mem)) := outputsHeld_writeOutputs hd
    have hwritten : m.held rows.1 =
        (writesOf resident).foldl (applyWrite (engine.execute m.image (m.held mem))) (replaced m.contents us) ∧
          OutputsHeld m rows.1 (engine.execute m.image (m.held mem)) ∧
            (cfg.rowCopyOnDevice = false → resident.isSome = true → rows.2 = m.held rows.1) := by
      cases resident with
      | none =>
        cases hrows
        exact ⟨hbefore, houts, fun _ h => absurd h Bool.false_ne_true⟩
      | some control =>
        obtain ⟨h₁, h₂, h₃⟩ := writeRows_eq_ok hp.fits houts
          (fun hhost => (shadowed_eq hm hhost rfl hcont hp.full).trans hbefore.symm) hrows
        rw [hbefore] at h₁
        exact ⟨h₁, h₂, fun hhost _ => h₃ hhost⟩
    obtain ⟨hrow, hout, hshadow⟩ := hwritten
    have hshells : 0 + shells.length ≤ m.outSpecs.length := by
      rw [Nat.zero_add, length_prepareOutputs hp.shells]
    refine ⟨hheld, ?_, download_eq_ok hout hshells hdown, ⟨rfl, rfl, rfl, rfl, rfl, rfl⟩, rfl, rfl, hshadow⟩
    rw [Resident.run, ← hheld]
    rw [← hheld] at hrow
    exact hrow

theorem runLoaded_eq_done (h : runLoaded cfg engine m request faults resident next = .done m' next' ran outputs) :
    ∃ us shells, Passed m request resident us shells ∧
      perform cfg engine m faults resident next us shells = .ok (m', next', ran, outputs) := by
  rw [runLoaded] at h
  split at h
  · cases h
  next checked hc =>
    split at h
    · cases h
    next r hr =>
      cases h
      exact ⟨checked.1, checked.2, check_eq_ok hc, hr⟩

theorem map_length_contents : m.contents.map List.length = m.inSpecs.map IoSpec.bytes := by
  apply ext_getElem
  · simp [LoadedModel.contents]
  · intro k hk hk'
    have hsize : (m.inSpecs.map IoSpec.bytes)[k] = m.inSize k := by
      rw [LoadedModel.inSize, LoadedModel.inSizes, getD_eq_getElem?_getD, getElem?_eq_getElem hk', getD_some]
    rw [hsize]
    simp [LoadedModel.contents]

theorem Passed.replaced_of_continues (h : Passed m request resident us shells) :
    replaced m.contents us = replaced m.contents (request.inputs.map sent) :=
  replaced_sent h.inputs map_length_contents h.uploads

theorem Passed.replaced_of_issues (h : Passed m request resident us shells) (hd : Described engine m)
    (hc : continues resident = false) :
    replaced m.contents us = replaced (blank engine m.image).contents (request.inputs.map sent) := by
  refine replaced_blank h.inputs (by simp [LoadedModel.contents]) ?_ (h.full hc) h.uploads
  rw [blank, hd.inputs]

theorem resetState_eq_ok (hd : Described engine m) (h : resetState cfg m faults next = .ok (m', next')) :
    m'.contents = (zeroed engine m.image).contents ∧ m'.stateId = next ∧ next' = nextStateId next ∧
      (cfg.rowCopyOnDevice = false → m'.shadow = m'.contents) ∧ m'.key = m.key ∧ m'.image = m.image ∧
      m'.inSpecs = m.inSpecs ∧ m'.outSpecs = m.outSpecs ∧ m'.mtimeNs = m.mtimeNs ∧ m'.fileSize = m.fileSize := by
  obtain ⟨mem, hmem, h⟩ := bind_eq_ok h
  cases h
  have hsize : Sized m 0 ((zeros m).map some) := by
    refine ⟨by simp [zeros, LoadedModel.inSizes], fun k src hk => ?_⟩
    simp only [zeros, List.map_map, getElem?_map, map_eq_some_iff] at hk
    obtain ⟨n, hn, hk⟩ := hk
    cases hk
    rw [length_replicate, Nat.zero_add, LoadedModel.inSize, getD_eq_getElem?_getD, hn, getD_some]
  have hzero : m.held mem = zeros m := by
    have hlen : ((zeros m).map some).length = m.inSpecs.length := by simp [zeros, LoadedModel.inSizes]
    have hheld : m.held mem = replaced m.contents ((zeros m).map some) :=
      held_eq_replaced hlen fun j hj => by rw [writeInputs_reads hmem hsize hj, if_neg Bool.false_ne_true]
    rw [hheld]
    apply ext_getElem
    · simp [replaced, zeros, LoadedModel.inSizes, LoadedModel.contents]
    · intro k hk hk'
      simp [replaced]
  have hz : zeros m = (zeroed engine m.image).contents := by
    rw [zeros, LoadedModel.inSizes, hd.inputs, List.map_map]
    rfl
  refine ⟨hzero.trans hz, rfl, rfl, fun hhost => ?_, rfl, rfl, rfl, rfl, rfl, rfl⟩
  rw [hhost]
  exact hzero.symm

end Onnxsim.Axcl.Runs
