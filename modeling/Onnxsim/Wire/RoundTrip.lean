import Onnxsim.Wire.Fields

namespace Onnxsim.Wire.Tensors

open List Lib.Bytes Lib.Readers Messages Encoders Decoders
open Fields

def elementsOf (shape : List Int) : Nat := (shape.map Int.toNat).prod

theorem countElements_eq_some {shape : List Int} {e n : Nat} (h : countElements shape e = some n) :
    n = e * elementsOf shape ∧ ∀ d ∈ shape, 0 ≤ d ∧ d.toNat ≤ kMaxTensorBytes := by
  induction shape generalizing e with
  | nil =>
    cases h
    exact ⟨(Nat.mul_one n).symm, by simp⟩
  | cons d shape ih =>
    rw [countElements] at h
    split at h
    · cases h
    · next hd =>
      obtain ⟨rfl, hall⟩ := ih h
      rw [not_or, not_or] at hd
      refine ⟨?_, forall_mem_cons.mpr ⟨⟨by omega, by omega⟩, hall⟩⟩
      rw [elementsOf, elementsOf, map_cons, prod_cons, Nat.mul_assoc]

theorem readsIf_decodeDims {shape : List Int} (h : ∀ d ∈ shape, 0 ≤ d ∧ d.toNat < 256 ^ 8) (e : Nat) :
    ReadsIf (decodeDims shape.length e) (shape.flatMap fun d => putU64 d.toNat) (shape, e * elementsOf shape)
      ((countElements shape e).isSome = true) := by
  induction shape generalizing e with
  | nil =>
    rw [elementsOf, map_nil, prod_nil, Nat.mul_one]
    exact (readsIf_pure _).iff (by simp [countElements])
  | cons d shape ih =>
    obtain ⟨⟨hd, hlt⟩, hrest⟩ := forall_mem_cons.mp h
    have hcast : (d.toNat : Int) = d := Int.toNat_of_nonneg hd
    have hcond : d < 0 ∨ kMaxTensorBytes < d.toNat ∨ (0 < d ∧ kMaxTensorBytes / d.toNat < e) ↔
        ¬(d.toNat ≤ kMaxTensorBytes ∧ ¬(0 < d.toNat ∧ kMaxTensorBytes / d.toNat < e)) := by
      have hpos : 0 < d ↔ 0 < d.toNat := by omega
      have hneg : ¬d < 0 := by omega
      rw [hpos, not_and_or, not_not, not_le]
      exact or_iff_right hneg
    have hstep := (readsIf_takeNumber (e := .told "invalid tensor dimension") hlt).seq
      (f := fun ud => do
        ensure (ud ≤ kMaxTensorBytes ∧ ¬(0 < ud ∧ kMaxTensorBytes / ud < e)) (.told "invalid tensor dimension")
        let rest ← decodeDims shape.length (e * ud)
        pure ((ud : Int) :: rest.1, rest.2))
      (ReadsIf.bind readsIf_ensure fun _ => ReadsIf.bind (ih hrest (e * d.toNat)) fun _ => readsIf_pure _)
    rw [hcast, append_nil, nil_append, Nat.mul_assoc] at hstep
    rw [flatMap_cons, countElements]
    refine ReadsIf.iff (a := (d :: shape, e * elementsOf (d :: shape))) hstep ?_
    constructor
    · rintro ⟨hfit, hcount, -⟩
      rw [if_neg (mt hcond.mp (not_not.mpr hfit))]
      exact hcount
    · intro hcount
      by_cases hbad : d < 0 ∨ kMaxTensorBytes < d.toNat ∨ (0 < d ∧ kMaxTensorBytes / d.toNat < e)
      · rw [if_pos hbad] at hcount
        cases hcount
      · rw [if_neg hbad] at hcount
        exact ⟨not_not.mp (mt hcond.mpr hbad), hcount, trivial⟩

theorem parses_decodeDims (rank e : Nat) : Parses (decodeDims rank e) fun xs r =>
    r.1.length = rank ∧ countElements r.1 e = some r.2 ∧ xs = r.1.flatMap fun d => putU64 d.toNat := by
  induction rank generalizing e with
  | zero => exact parses_pure ⟨rfl, rfl, rfl⟩
  | succ rank ih =>
    refine (parses_takeNumber 8).bind ?_
    rintro xs ud ⟨rfl, -⟩
    refine parses_ensure.bind ?_
    rintro ys - ⟨rfl, hud⟩
    refine (ih (e * ud)).bind ?_
    rintro zs ⟨shape, n⟩ ⟨hlen, hcount, rfl⟩
    refine parses_pure ⟨by rw [length_cons, hlen], ?_, ?_⟩
    · have hcond : ¬((ud : Int) < 0 ∨ kMaxTensorBytes < (ud : Int).toNat ∨
          (0 < (ud : Int) ∧ kMaxTensorBytes / (ud : Int).toNat < e)) := by
        rw [Int.toNat_natCast]
        omega
      rw [countElements, if_neg hcond, Int.toNat_natCast]
      exact hcount
    · rw [flatMap_cons, Int.toNat_natCast, append_nil, nil_append]
      rfl

theorem avoids_decodeDims (rank e : Nat) : Avoids (decodeDims rank e) .stray := by
  induction rank generalizing e with
  | zero => exact avoids_pure _ _
  | succ rank ih =>
    exact (avoids_takeNumber Failure.noConfusion 8).bind fun ud =>
      (avoids_ensure Failure.noConfusion).bind fun _ => (ih (e * ud)).bind fun _ => avoids_pure _ _

/-- What decoding a tensor leaves in an object: the vector of the other kind keeps its contents. -/
def merge (dest t : Tensor) : Tensor :=
  if t.dtype = 1 then { t with rawData := dest.rawData } else { t with data := dest.data }

def StaleAt (dest t : Tensor) : Prop := if t.dtype = 1 then dest.rawData ≠ [] else dest.data ≠ []

/-- A tensor whose vectors have the sizes that its shape asks for. -/
structure Sized (t : Tensor) : Prop where
  rank : t.shape.length ≤ kMaxRank
  dtype : dtypeBytes t.dtype.toNat ≠ 0
  dims : ∀ d ∈ t.shape, 0 ≤ d ∧ d.toNat < 256 ^ 8
  size : elementsOf t.shape * dtypeBytes t.dtype.toNat ≤ kMaxTensorBytes
  float : t.dtype = 1 → t.rawData = [] ∧ t.data.length = elementsOf t.shape
  raw : t.dtype ≠ 1 → t.data = [] ∧ t.rawData.length = elementsOf t.shape * dtypeBytes t.dtype.toNat

variable {t : Tensor}

theorem checkedTensor_eq_ok : checkedTensor t = .ok () ↔ Sized t ∧ (countElements t.shape 1).isSome = true := by
  rw [checkedTensor]
  split
  · next hrank =>
    refine iff_of_false nofun ?_
    rintro ⟨h, -⟩
    exact absurd hrank (not_lt.mpr h.rank)
  · next hrank =>
    dsimp only
    split
    · next hdtype =>
      refine iff_of_false nofun ?_
      rintro ⟨h, -⟩
      exact absurd hdtype h.dtype
    · next hdtype =>
      cases hcount : countElements t.shape 1 with
      | none =>
        refine iff_of_false nofun ?_
        rintro ⟨-, h⟩
        cases h
      | some n =>
        obtain ⟨hn, hdims⟩ := countElements_eq_some hcount
        rw [Nat.one_mul] at hn
        subst hn
        dsimp only
        split
        · next hfloat =>
          refine iff_of_false nofun ?_
          rintro ⟨h, -⟩
          obtain ⟨hraw, hlen⟩ := h.float hfloat.1
          rcases hfloat.2 with hne | hne
          · exact absurd hraw hne
          · exact absurd hlen.symm hne
        · next hfloat =>
          split
          · next hraw =>
            refine iff_of_false nofun ?_
            rintro ⟨h, -⟩
            obtain ⟨hdata, hlen⟩ := h.raw hraw.1
            rcases hraw.2 with hne | hne
            · exact absurd hdata hne
            · exact absurd hlen.symm hne
          · next hraw =>
            split
            · next hsize =>
              refine iff_of_false nofun ?_
              rintro ⟨h, -⟩
              exact absurd hsize (not_lt.mpr h.size)
            · next hsize =>
              refine iff_of_true rfl ⟨⟨not_lt.mp hrank, hdtype, ?_, not_lt.mp hsize, ?_, ?_⟩, rfl⟩
              · intro d hd
                obtain ⟨hd₀, hd₁⟩ := hdims d hd
                exact ⟨hd₀, hd₁.trans_lt (by decide)⟩
              · intro h1
                have hgood := not_or.mp fun h => hfloat ⟨h1, h⟩
                exact ⟨not_not.mp hgood.1, (not_not.mp hgood.2).symm⟩
              · intro h1
                have hgood := not_or.mp fun h => hraw ⟨h1, h⟩
                exact ⟨not_not.mp hgood.1, (not_not.mp hgood.2).symm⟩

theorem Sized.payload_length (h : Sized t) :
    t.payload.length = elementsOf t.shape * dtypeBytes t.dtype.toNat := by
  rw [Tensor.payload]
  by_cases h1 : t.dtype = 1
  · rw [if_pos h1, wordBytes_length, (h.float h1).2, h1]
    rfl
  · rw [if_neg h1, (h.raw h1).2]

theorem Sized.count (h : Sized t) :
    (if t.dtype = 1 then t.data.length else t.rawData.length / dtypeBytes t.dtype.toNat) = elementsOf t.shape := by
  by_cases h1 : t.dtype = 1
  · rw [if_pos h1, (h.float h1).2]
  · rw [if_neg h1, (h.raw h1).2, Nat.mul_div_cancel _ (Nat.pos_of_ne_zero h.dtype)]

theorem merge_eq (h : Sized t) (dest : Tensor) : merge dest t = t ↔ ¬StaleAt dest t := by
  obtain ⟨shape, data, dtype, rawData⟩ := t
  rw [merge, StaleAt]
  by_cases h1 : dtype = 1
  · have hraw := (h.float h1).1
    dsimp only at hraw ⊢
    rw [if_pos h1, if_pos h1, not_not, hraw]
    simp
  · have hdata := (h.raw h1).1
    dsimp only at hdata ⊢
    rw [if_neg h1, if_neg h1, not_not, hdata]
    simp

variable {dest : Tensor}

theorem dtype_lt (t : Tensor) : t.dtype.toNat < 256 ^ 4 := t.dtype.toNat_lt.trans (by decide)

theorem dtype_eq_one (t : Tensor) : t.dtype.toNat = 1 ↔ t.dtype = 1 := by
  constructor
  · intro h
    exact UInt8.toNat_inj.mp h
  · intro h
    rw [h]
    rfl

theorem readsIf_decodeTensor (h : Sized t) (dest : Tensor) :
    ReadsIf (decodeTensor dest) (tensorBytes t) (merge dest t) ((countElements t.shape 1).isSome = true) := by
  have hdtype : t.dtype.toNat ≤ 255 ∧ dtypeBytes t.dtype.toNat ≠ 0 := ⟨Nat.le_of_lt_succ t.dtype.toNat_lt, h.dtype⟩
  have hrank : t.shape.length < 256 ^ 4 := h.rank.trans_lt (by decide)
  have hfit : elementsOf t.shape = 1 * elementsOf t.shape ∧
      elementsOf t.shape ≤ kMaxTensorBytes / dtypeBytes t.dtype.toNat :=
    ⟨(Nat.one_mul _).symm, (Nat.le_div_iff_mul_le (Nat.pos_of_ne_zero h.dtype)).mpr h.size⟩
  have hcount : elementsOf t.shape < 256 ^ 8 := hfit.2.trans_lt ((Nat.div_le_self _ _).trans_lt (by decide))
  have hpayload := h.payload_length
  rw [decodeTensor, tensorBytes, h.count, ← append_nil t.payload]
  generalize hbytes : t.payload = bytes at hpayload
  refine (readsIf_takeNumber (dtype_lt t)).seq ?_
  refine (readsIf_ensure.iff (iff_true_intro hdtype)).seq_nil ?_
  refine (readsIf_takeNumber hrank).seq ?_
  refine (readsIf_ensure.iff (iff_true_intro h.rank)).seq_nil ?_
  refine ((readsIf_decodeDims h.dims 1).bind fun _ => ?_).iff (and_true _).to_iff
  refine (readsIf_takeNumber hcount).seq ?_
  refine (readsIf_ensure.iff (iff_true_intro hfit)).seq_nil ?_
  refine (readsIf_takeBytes hpayload).seq ?_
  rw [merge]
  rw [Tensor.payload] at hbytes
  by_cases h1 : t.dtype = 1
  · rw [if_pos ((dtype_eq_one t).mpr h1), if_pos h1]
    rw [if_pos h1] at hbytes
    rw [← hbytes, ← (h.float h1).2, wordsOf_wordBytes, UInt8.ofNat_toNat]
    exact readsIf_pure _
  · rw [if_neg (mt (dtype_eq_one t).mp h1), if_neg h1]
    rw [if_neg h1] at hbytes
    rw [← hbytes, UInt8.ofNat_toNat]
    exact readsIf_pure _

theorem parses_decodeTensor (dest : Tensor) : Parses (decodeTensor dest) fun xs a =>
    ∃ t, xs = tensorBytes t ∧ a = merge dest t ∧ checkedTensor t = .ok () := by
  refine (parses_takeNumber 4).bind ?_
  rintro _ dtype ⟨rfl, -⟩
  refine parses_ensure.bind ?_
  rintro _ - ⟨rfl, hdtype, hbytes⟩
  refine (parses_takeNumber 4).bind ?_
  rintro _ rank ⟨rfl, -⟩
  refine parses_ensure.bind ?_
  rintro _ - ⟨rfl, hrank⟩
  refine (parses_decodeDims rank 1).bind ?_
  rintro _ ⟨shape, elements⟩ ⟨rfl, hcount, rfl⟩
  refine (parses_takeNumber 8).bind ?_
  rintro _ n ⟨rfl, -⟩
  refine parses_ensure.bind ?_
  rintro _ - ⟨rfl, rfl, hn⟩
  refine (parses_takeBytes _).bind ?_
  rintro bytes _ ⟨rfl, hlen⟩
  obtain ⟨hprod, hdims⟩ := countElements_eq_some hcount
  dsimp only at hprod hdims hrank hcount
  rw [Nat.one_mul] at hprod
  subst hprod
  have hsize : elementsOf shape * dtypeBytes dtype ≤ kMaxTensorBytes :=
    (Nat.le_div_iff_mul_le (Nat.pos_of_ne_zero hbytes)).mp hn
  have hcode : (UInt8.ofNat dtype).toNat = dtype := UInt8.toNat_ofNat_of_lt' (Nat.lt_succ_of_le hdtype)
  have hdims' : ∀ d ∈ shape, 0 ≤ d ∧ d.toNat < 256 ^ 8 := fun d hd =>
    ⟨(hdims d hd).1, (hdims d hd).2.trans_lt (by decide)⟩
  by_cases h1 : dtype = 1
  · rw [if_pos h1]
    subst h1
    have hwords : bytes.length = elementsOf shape * 4 := hlen
    refine parses_pure ⟨⟨shape, wordsOf (elementsOf shape) bytes, 1, []⟩, ?_, rfl, ?_⟩
    · rw [append_nil, tensorBytes, Tensor.payload, if_pos rfl, if_pos rfl, wordsOf_length,
        wordBytes_wordsOf hwords]
      rfl
    · refine checkedTensor_eq_ok.mpr ⟨⟨hrank, hbytes, hdims', hsize, fun _ => ⟨rfl, wordsOf_length _ _⟩,
        fun h => absurd rfl h⟩, ?_⟩
      rw [hcount]
      rfl
  · rw [if_neg h1]
    have hne : UInt8.ofNat dtype ≠ 1 := by
      intro h
      rw [h] at hcode
      exact h1 hcode.symm
    refine parses_pure ⟨⟨shape, [], UInt8.ofNat dtype, bytes⟩, ?_, ?_, ?_⟩
    · rw [append_nil, tensorBytes, Tensor.payload, if_neg hne, if_neg hne, hcode, hlen,
        Nat.mul_div_cancel _ (Nat.pos_of_ne_zero hbytes)]
      rfl
    · rw [merge, if_neg hne]
    · refine checkedTensor_eq_ok.mpr ⟨⟨hrank, ?_, hdims', ?_, fun h => absurd h hne, fun _ => ⟨rfl, ?_⟩⟩, ?_⟩
      · rwa [hcode]
      · rwa [hcode]
      · rw [hcode, hlen]
      · rw [hcount]
        rfl

theorem avoids_decodeTensor (dest : Tensor) : Avoids (decodeTensor dest) .stray := by
  refine (avoids_takeNumber Failure.noConfusion 4).bind fun dtype => ?_
  refine (avoids_ensure Failure.noConfusion).bind fun _ => ?_
  refine (avoids_takeNumber Failure.noConfusion 4).bind fun rank => ?_
  refine (avoids_ensure Failure.noConfusion).bind fun _ => ?_
  refine (avoids_decodeDims rank 1).bind fun r => ?_
  refine (avoids_takeNumber Failure.noConfusion 8).bind fun n => ?_
  refine (avoids_ensure Failure.noConfusion).bind fun _ => ?_
  refine (avoids_takeBytes Failure.noConfusion _).bind fun bytes => ?_
  split
  · exact avoids_pure _ _
  · exact avoids_pure _ _

end Onnxsim.Wire.Tensors

namespace Onnxsim.Wire.RoundTrip

open List Lib.Bytes Lib.Readers Messages Encoders Decoders
open Fields Tensors

variable {α : Type}

theorem length_resize (n : Nat) (fresh : α) (l : List α) : (resize n fresh l).length = n := by
  rw [resize, length_append, length_take, length_replicate]
  omega

theorem resize_nil (n : Nat) (fresh : α) : resize (n + 1) fresh [] = fresh :: resize n fresh [] := by
  simp [resize, replicate_succ]

theorem resize_cons (n : Nat) (fresh a : α) (l : List α) : resize (n + 1) fresh (a :: l) = a :: resize n fresh l := by
  rw [resize, resize, take_succ_cons, length_cons, Nat.add_sub_add_right, cons_append]

def mergeAll (dest ts : List Tensor) : List Tensor := List.zipWith merge (resize ts.length {} dest) ts

/-- Some tensor is read into an object that holds data of the other kind. -/
def Stale (dest ts : List Tensor) : Prop := ∃ p ∈ dest.zip ts, StaleAt p.1 p.2

theorem mergeAll_eq {ts : List Tensor} (h : ∀ t ∈ ts, Sized t) (dest : List Tensor) :
    mergeAll dest ts = ts ↔ ¬Stale dest ts := by
  induction ts generalizing dest with
  | nil => simp [mergeAll, Stale]
  | cons t ts ih =>
    obtain ⟨ht, hts⟩ := forall_mem_cons.mp h
    cases dest with
    | nil =>
      have hfresh : merge {} t = t := by
        rw [merge_eq ht, StaleAt]
        split <;> simp
      have hrest : mergeAll [] ts = ts := by
        rw [ih hts, Stale]
        simp
      rw [mergeAll, length_cons, resize_nil, zipWith_cons_cons, hfresh, ← mergeAll, hrest, Stale]
      simp
    | cons d dest =>
      rw [mergeAll, length_cons, resize_cons, zipWith_cons_cons, ← mergeAll, List.cons.injEq, merge_eq ht,
        ih hts, Stale, Stale, zip_cons_cons]
      simp [not_or]

theorem stale_nil (ts : List Tensor) : ¬Stale [] ts := by
  rintro ⟨p, hp, -⟩
  rw [zip_nil_left] at hp
  cases hp

theorem zipWith_second {β : Type} {as : List α} {bs : List β} (h : as.length = bs.length) :
    List.zipWith (fun _ b => b) as bs = bs :=
  (map_zipWith (f := Prod.snd) (g := Prod.mk)).symm.trans (map_snd_zip h.ge)

def ShapesFit (ts : List Tensor) : Prop := ∀ t ∈ ts, (countElements t.shape 1).isSome = true

theorem readsIf_decodeTensors {ts : List Tensor} (hlen : ts.length ≤ kMaxTensors) (h : ∀ t ∈ ts, Sized t)
    (dest : List Tensor) : ReadsIf (decodeTensors dest) (tensorsBytes ts) (mergeAll dest ts) (ShapesFit ts) := by
  refine (readsIf_takeNumber (hlen.trans_lt (by decide))).seq ?_
  refine (readsIf_ensure.iff (iff_true_intro hlen)).seq_nil ?_
  exact readsIf_readEach (length_resize _ _ _) fun d t ht => readsIf_decodeTensor (h t ht) d

theorem parses_decodeTensors (dest : List Tensor) : Parses (decodeTensors dest) fun xs as =>
    ∃ ts : List Tensor, xs = tensorsBytes ts ∧ as = mergeAll dest ts ∧ ts.length ≤ kMaxTensors ∧
      ∀ t ∈ ts, checkedTensor t = .ok () := by
  refine (parses_takeNumber 4).bind ?_
  rintro _ count ⟨rfl, -⟩
  refine parses_ensure.bind ?_
  rintro _ - ⟨rfl, hcount⟩
  refine (parses_readEach parses_decodeTensor _).mono ?_
  rintro xs as ⟨ts, hlen, rfl, rfl, hall⟩
  rw [length_resize] at hlen
  subst hlen
  exact ⟨ts, rfl, rfl, hcount, hall⟩

theorem avoids_decodeTensors (dest : List Tensor) : Avoids (decodeTensors dest) .stray :=
  (avoids_takeNumber Failure.noConfusion 4).bind fun _ =>
    (avoids_ensure Failure.noConfusion).bind fun _ => avoids_readEach avoids_decodeTensor _

variable {event : ProfileEvent}

theorem checkedEvent_eq_ok : checkedEvent event = .ok () ↔
    event.name ≠ [] ∧ event.name.length ≤ kMaxProfileNameBytes ∧ event.category.length ≤ kMaxProfileNameBytes ∧
      event.detail.length ≤ kMaxProfileDetailBytes := by
  rw [checkedEvent]
  split
  · next hbad =>
    refine iff_of_false nofun ?_
    rintro ⟨hname, h₁, h₂, h₃⟩
    rcases hbad with h | h | h | h
    · exact absurd h hname
    · omega
    · omega
    · omega
  · next hgood =>
    rw [not_or, not_or, not_or, not_lt, not_lt, not_lt] at hgood
    exact iff_of_true rfl hgood

theorem readsIf_decodeEvent (h : checkedEvent event = .ok ()) (dest : ProfileEvent) :
    ReadsIf (decodeEvent dest) (eventBytes event) event True := by
  obtain ⟨hname, hlen, hcategory, hdetail⟩ := checkedEvent_eq_ok.mp h
  rw [decodeEvent, eventBytes, ← append_nil (putString event.detail)]
  refine (readsIf_takeString (by decide) hlen).seq ?_
  refine (readsIf_ensure.iff (iff_true_intro hname)).seq_nil ?_
  refine (readsIf_takeString (by decide) hcategory).seq ?_
  refine (readsIf_takeNumber event.startUs.toNat_lt).seq ?_
  refine (readsIf_takeNumber event.durationUs.toNat_lt).seq ?_
  refine (readsIf_takeString (by decide) hdetail).seq ?_
  rw [UInt64.ofNat_toNat, UInt64.ofNat_toNat]
  exact readsIf_pure _

theorem parses_decodeEvent (dest : ProfileEvent) : Parses (decodeEvent dest) fun xs event =>
    ∃ e, xs = eventBytes e ∧ event = e ∧ checkedEvent e = .ok () := by
  refine parses_takeString.bind ?_
  rintro _ name ⟨rfl, hlen⟩
  refine parses_ensure.bind ?_
  rintro _ - ⟨rfl, hname⟩
  refine parses_takeString.bind ?_
  rintro _ category ⟨rfl, hcategory⟩
  refine (parses_takeNumber 8).bind ?_
  rintro _ startUs ⟨rfl, hstart⟩
  refine (parses_takeNumber 8).bind ?_
  rintro _ durationUs ⟨rfl, hduration⟩
  refine parses_takeString.bind ?_
  rintro _ detail ⟨rfl, hdetail⟩
  refine parses_pure ⟨_, ?_, rfl, checkedEvent_eq_ok.mpr ⟨hname, hlen, hcategory, hdetail⟩⟩
  rw [eventBytes, UInt64.toNat_ofNat_of_lt' hstart, UInt64.toNat_ofNat_of_lt' hduration, append_nil]
  rfl

theorem avoids_decodeEvent (dest : ProfileEvent) : Avoids (decodeEvent dest) .stray := by
  refine (avoids_takeString Failure.noConfusion _).bind fun name => ?_
  refine (avoids_ensure Failure.noConfusion).bind fun _ => ?_
  refine (avoids_takeString Failure.noConfusion _).bind fun category => ?_
  refine (avoids_takeNumber Failure.noConfusion 8).bind fun startUs => ?_
  refine (avoids_takeNumber Failure.noConfusion 8).bind fun durationUs => ?_
  exact (avoids_takeString Failure.noConfusion _).bind fun detail => avoids_pure _ _

theorem readsIf_decodeProfile {events : List ProfileEvent} (hlen : events.length ≤ kMaxProfileEvents)
    (h : ∀ event ∈ events, checkedEvent event = .ok ()) (dest : List ProfileEvent) :
    ReadsIf (decodeProfile dest) (profileBytes events) events True := by
  refine (readsIf_takeNumber (hlen.trans_lt (by decide))).seq ?_
  refine (readsIf_ensure.iff (iff_true_intro hlen)).seq_nil ?_
  have heach : ReadsIf (readEach decodeEvent (resize events.length ⟨[], [], 0, 0, []⟩ dest))
      (events.flatMap eventBytes)
      (List.zipWith (fun _ e => e) (resize events.length ⟨[], [], 0, 0, []⟩ dest) events) (∀ e ∈ events, True) :=
    readsIf_readEach (length_resize _ _ _) fun d e he => readsIf_decodeEvent (h e he) d
  rw [zipWith_second (length_resize _ _ _)] at heach
  exact heach.iff (by simp)

theorem parses_decodeProfile (dest : List ProfileEvent) : Parses (decodeProfile dest) fun xs events =>
    xs = profileBytes events ∧ events.length ≤ kMaxProfileEvents ∧ ∀ event ∈ events, checkedEvent event = .ok () := by
  refine (parses_takeNumber 4).bind ?_
  rintro _ count ⟨rfl, -⟩
  refine parses_ensure.bind ?_
  rintro _ - ⟨rfl, hcount⟩
  refine (parses_readEach parses_decodeEvent _).mono ?_
  rintro xs as ⟨events, hlen, rfl, rfl, hall⟩
  rw [zipWith_second hlen.symm]
  rw [length_resize] at hlen
  subst hlen
  exact ⟨rfl, hcount, hall⟩

theorem avoids_decodeProfile (dest : List ProfileEvent) : Avoids (decodeProfile dest) .stray :=
  (avoids_takeNumber Failure.noConfusion 4).bind fun _ =>
    (avoids_ensure Failure.noConfusion).bind fun _ => avoids_readEach avoids_decodeEvent _

/-- A request within the limits, its tensors of the sizes that their shapes ask for. -/
structure RequestSized (r : Request) : Prop where
  op : r.op ≠ [] ∧ r.op.length ≤ kMaxOpBytes
  artifactId : r.artifactId.length ≤ kMaxArtifactIdBytes
  model : r.model.length ≤ kMaxMessageBytes
  artifact : r.artifact.length ≤ kMaxArtifactBytes
  inputs : r.inputs.length ≤ kMaxTensors
  tensors : ∀ t ∈ r.inputs, Sized t

variable {r : Request}

theorem readsIf_readRequest (h : RequestSized r) (dest : Request) :
    ReadsIf (readRequest dest) (requestBytes r) { r with inputs := mergeAll dest.inputs r.inputs }
      (ShapesFit r.inputs) := by
  have hop : r.op.length ≠ 0 ∧ r.op.length ≤ kMaxOpBytes :=
    ⟨fun hlen => h.op.1 (eq_nil_of_length_eq_zero hlen), h.op.2⟩
  have hprofiling : r.profiling.code ≤ ProfilingLevel.detailed.code := r.profiling.code_le
  have hbytes : requestBytes r = putU64 r.requestId.toNat ++ (putU32 r.op.length ++ (r.op ++ (putString r.artifactId ++
      (putBlob r.model ++ (putBlob r.artifact ++ (putU32 r.profiling.code ++ (tensorsBytes r.inputs ++ []))))))) := by
    rw [requestBytes, putString, append_assoc, append_nil]
  rw [hbytes]
  refine (readsIf_takeNumber r.requestId.toNat_lt).seq ?_
  refine (readsIf_takeNumber (hop.2.trans_lt (by decide))).seq ?_
  refine (readsIf_ensure.iff (iff_true_intro hop)).seq_nil ?_
  refine (readsIf_takeBytes rfl).seq ?_
  refine (readsIf_takeString (by decide) h.artifactId).seq ?_
  refine (readsIf_takeBlob (by decide) h.model).seq ?_
  refine (readsIf_takeBlob (by decide) h.artifact).seq ?_
  refine (readsIf_takeNumber (hprofiling.trans_lt (by decide))).seq ?_
  refine (readsIf_ensure.iff (iff_true_intro hprofiling)).seq_nil ?_
  refine ((readsIf_decodeTensors h.inputs h.tensors dest.inputs).bind fun _ => ?_).iff (and_true _).to_iff
  rw [UInt64.ofNat_toNat, ProfilingLevel.ofCode_code]
  exact readsIf_pure _

theorem parses_readRequest (dest : Request) : Parses (readRequest dest) fun xs a =>
    ∃ r : Request, xs = requestBytes r ∧ a = { r with inputs := mergeAll dest.inputs r.inputs } ∧ RequestOk r := by
  refine (parses_takeNumber 8).bind ?_
  rintro _ requestId ⟨rfl, hid⟩
  refine (parses_takeNumber 4).bind ?_
  rintro _ opLen ⟨rfl, -⟩
  refine parses_ensure.bind ?_
  rintro _ - ⟨rfl, hop⟩
  refine (parses_takeBytes opLen).bind ?_
  rintro op _ ⟨rfl, rfl⟩
  refine parses_takeString.bind ?_
  rintro _ artifactId ⟨rfl, hartifactId⟩
  refine parses_takeBlob.bind ?_
  rintro _ model ⟨rfl, -⟩
  refine parses_takeBlob.bind ?_
  rintro _ artifact ⟨rfl, hartifact⟩
  refine (parses_takeNumber 4).bind ?_
  rintro _ profiling ⟨rfl, -⟩
  refine parses_ensure.bind ?_
  rintro _ - ⟨rfl, hprofiling⟩
  refine (parses_decodeTensors dest.inputs).bind ?_
  rintro _ inputs ⟨ts, rfl, rfl, hlen, hall⟩
  refine parses_pure ⟨⟨UInt64.ofNat requestId, op, model, artifactId, artifact, ts, ProfilingLevel.ofCode profiling⟩,
    ?_, rfl, ⟨⟨fun h => hop.1 (length_eq_zero_iff.mpr h), hop.2⟩, hartifactId, hartifact, hlen, hall⟩⟩
  rw [requestBytes, UInt64.toNat_ofNat_of_lt' hid, ProfilingLevel.code_ofCode hprofiling, append_nil]
  simp only [putString, append_assoc, nil_append]
  rfl

theorem avoids_readRequest (dest : Request) : Avoids (readRequest dest) .stray := by
  refine (avoids_takeNumber Failure.noConfusion 8).bind fun requestId => ?_
  refine (avoids_takeNumber Failure.noConfusion 4).bind fun opLen => ?_
  refine (avoids_ensure Failure.noConfusion).bind fun _ => ?_
  refine (avoids_takeBytes Failure.noConfusion opLen).bind fun op => ?_
  refine (avoids_takeString Failure.noConfusion _).bind fun artifactId => ?_
  refine (avoids_takeBlob Failure.noConfusion _).bind fun model => ?_
  refine (avoids_takeBlob Failure.noConfusion _).bind fun artifact => ?_
  refine (avoids_takeNumber Failure.noConfusion 4).bind fun profiling => ?_
  refine (avoids_ensure Failure.noConfusion).bind fun _ => ?_
  exact (avoids_decodeTensors _).bind fun inputs => avoids_pure _ _

theorem sized_of_ok (h : RequestOk r) (hsize : (requestBytes r).length ≤ kMaxMessageBytes) : RequestSized r := by
  refine ⟨h.op, h.artifactId, ?_, h.artifact, h.inputs, fun t ht => (checkedTensor_eq_ok.mp (h.tensors t ht)).1⟩
  rw [requestBytes, putBlob] at hsize
  simp only [length_append] at hsize
  omega

theorem fit_of_ok (h : RequestOk r) : ShapesFit r.inputs :=
  fun t ht => (checkedTensor_eq_ok.mp (h.tensors t ht)).2

theorem decodeRequestBytes_sized (h : RequestSized r) (dest : Request) :
    (ShapesFit r.inputs →
      decodeRequestBytes (requestBytes r) dest = .ok { r with inputs := mergeAll dest.inputs r.inputs }) ∧
    (¬ShapesFit r.inputs → ∃ e, decodeRequestBytes (requestBytes r) dest = .error e) :=
  decodeAll_of_readsIf (readsIf_readRequest h dest)

theorem of_decodeRequestBytes {b : ByteString} {dest a : Request} (h : decodeRequestBytes b dest = .ok a) :
    ∃ r : Request, b = requestBytes r ∧ a = { r with inputs := mergeAll dest.inputs r.inputs } ∧ RequestOk r :=
  of_decodeAll (parses_readRequest dest) h

def mergeResponse (dest r : Response) : Response :=
  if r.ok = true then { r with error := [], outputs := mergeAll dest.outputs r.outputs }
  else { dest with requestId := r.requestId, ok := false, error := r.error }

theorem readsIf_readError {r : Response} (hr : r.ok = false) (h : r.error.length ≤ kMaxProfileDetailBytes * 4)
    (dest : Response) : ReadsIf (readError dest) (responseBytes r) (mergeResponse dest r) True := by
  rw [responseBytes, mergeResponse, hr, if_neg Bool.false_ne_true, if_neg Bool.false_ne_true,
    ← append_nil (putString r.error)]
  refine (readsIf_takeNumber r.requestId.toNat_lt).seq ?_
  refine (readsIf_takeString (by decide) h).seq ?_
  rw [UInt64.ofNat_toNat]
  exact readsIf_pure _

theorem parses_readError (dest : Response) : Parses (readError dest) fun xs a => ∃ r : Response, xs = responseBytes r ∧
    a = mergeResponse dest r ∧ r.ok = false ∧ r.error.length ≤ kMaxProfileDetailBytes * 4 := by
  refine (parses_takeNumber 8).bind ?_
  rintro _ requestId ⟨rfl, hid⟩
  refine parses_takeString.bind ?_
  rintro _ error ⟨rfl, herror⟩
  refine parses_pure ⟨⟨UInt64.ofNat requestId, false, error, [], [], [], [], []⟩, ?_, rfl, rfl, herror⟩
  rw [responseBytes, UInt64.toNat_ofNat_of_lt' hid, append_nil]
  rfl

theorem avoids_readError (dest : Response) : Avoids (readError dest) .stray :=
  (avoids_takeNumber Failure.noConfusion 8).bind fun _ =>
    (avoids_takeString Failure.noConfusion _).bind fun _ => avoids_pure _ _

theorem readsIf_readOk {r : Response} (hr : r.ok = true) (h : ResponseOk r) (dest : Response) :
    ReadsIf (readOk dest) (responseBytes r) (mergeResponse dest r) True := by
  have hsized : ∀ t ∈ r.outputs, Sized t := fun t ht => (checkedTensor_eq_ok.mp (h.tensors t ht)).1
  have hfit : ShapesFit r.outputs := fun t ht => (checkedTensor_eq_ok.mp (h.tensors t ht)).2
  rw [responseBytes, mergeResponse, if_pos hr, if_pos hr, ← append_nil (putBlob r.artifact)]
  refine (readsIf_takeNumber r.requestId.toNat_lt).seq ?_
  refine ((readsIf_decodeTensors h.outputs hsized dest.outputs).iff (iff_true_intro hfit)).seq ?_
  refine (readsIf_decodeProfile h.profile h.events dest.profile).seq ?_
  refine (readsIf_takeString (by decide) h.artifactId).seq ?_
  refine (readsIf_takeString (by decide) h.manifest).seq ?_
  refine (readsIf_takeBlob (by decide) h.artifact).seq ?_
  rw [UInt64.ofNat_toNat, ← hr]
  exact readsIf_pure _

theorem parses_readOk (dest : Response) : Parses (readOk dest) fun xs a =>
    ∃ r : Response, xs = responseBytes r ∧ a = mergeResponse dest r ∧ r.ok = true ∧ r.error = [] ∧ ResponseOk r := by
  refine (parses_takeNumber 8).bind ?_
  rintro _ requestId ⟨rfl, hid⟩
  refine (parses_decodeTensors dest.outputs).bind ?_
  rintro _ outputs ⟨ts, rfl, rfl, hlen, hall⟩
  refine (parses_decodeProfile dest.profile).bind ?_
  rintro _ profile ⟨rfl, hprofile, hevents⟩
  refine parses_takeString.bind ?_
  rintro _ artifactId ⟨rfl, hartifactId⟩
  refine parses_takeString.bind ?_
  rintro _ manifest ⟨rfl, hmanifest⟩
  refine parses_takeBlob.bind ?_
  rintro _ artifact ⟨rfl, hartifact⟩
  refine parses_pure ⟨⟨UInt64.ofNat requestId, true, [], ts, profile, artifactId, artifact, manifest⟩, ?_, rfl, rfl, rfl,
    ⟨hartifactId, hartifact, hmanifest, hlen, hall, hprofile, hevents⟩⟩
  rw [responseBytes, UInt64.toNat_ofNat_of_lt' hid, append_nil]
  rfl

theorem avoids_readOk (dest : Response) : Avoids (readOk dest) .stray := by
  refine (avoids_takeNumber Failure.noConfusion 8).bind fun requestId => ?_
  refine (avoids_decodeTensors _).bind fun outputs => ?_
  refine (avoids_decodeProfile _).bind fun profile => ?_
  refine (avoids_takeString Failure.noConfusion _).bind fun artifactId => ?_
  refine (avoids_takeString Failure.noConfusion _).bind fun manifest => ?_
  exact (avoids_takeBlob Failure.noConfusion _).bind fun artifact => avoids_pure _ _

end Onnxsim.Wire.RoundTrip
