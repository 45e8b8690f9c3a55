import Onnxsim.Mcode.Codec

namespace Onnxsim.Mcode.RoundTrip

open List hiding andM orM
open Option Lib.Bytes Tokens Codec

variable {r : Rule} {m : ByteString} {hi i j : Nat} {x y : Option Bool} {b : Byte} {bs : ByteString} {k n lo : Nat}
  {t : Token} {ts : List Token}

theorem and_eq_true : (x <&&> y) = some true ↔ x = some true ∧ y = some true := by
  rcases x with _ | _ | _ <;> simp [andM, toBool]

@[simp] theorem isSome_and : (x <&&> y).isSome ↔ x.isSome ∧ (x = some true → y.isSome) := by
  rcases x with _ | _ | _ <;> simp [andM, toBool]

@[simp] theorem isSome_or : (x <||> y).isSome ↔ x.isSome ∧ (x = some false → y.isSome) := by
  rcases x with _ | _ | _ <;> simp [orM, toBool]

@[simp] theorem isSome_test {p : Byte → Bool} : (test m i p).isSome ↔ i < m.length := by simp [test]

@[simp] theorem isSome_reads : (reads m i b).isSome ↔ i < m.length := isSome_test

theorem cons_prefix_drop : b :: bs <+: m.drop i ↔ m[i]? = some b ∧ bs <+: m.drop (i + 1) := by
  by_cases h : i < m.length
  · rw [drop_eq_getElem_cons h, cons_prefix_cons, getElem?_eq_getElem h, Option.some.injEq, eq_comm]
  · simp [drop_eq_nil_of_le (not_lt.mp h), not_lt.mp h]

theorem readsAll_eq_true : readsAll m i bs = some true ↔ bs <+: m.drop i := by
  induction bs generalizing i with
  | nil => simp [readsAll]
  | cons b bs ih => rw [readsAll, and_eq_true, ih, cons_prefix_drop]; simp [reads, test]

/-- `x` raises nothing, and what it returns satisfies `Q`. -/
def Ends {α : Type} (Q : α → Prop) (x : Option α) : Prop := ∃ a, x = some a ∧ Q a

variable {α β : Type} {Q : β → Prop} {P : α → Prop} {f : α → Option β}

theorem Ends.bind {x : Option α} (hx : Ends P x) (hf : ∀ a, x = some a → P a → Ends Q (f a)) : Ends Q (x >>= f) := by
  obtain ⟨a, rfl, ha⟩ := hx
  exact hf a rfl ha

theorem Ends.seq {x : Option α} (hx : x.isSome) (hf : ∀ a, x = some a → Ends Q (f a)) : Ends Q (x >>= f) := by
  obtain ⟨a, rfl⟩ := isSome_iff_exists.mp hx
  exact hf a rfl

theorem Ends.read {f : Byte → Option β} (h : i < m.length) (hf : ∀ b, m[i]? = some b → Ends Q (f b)) :
    Ends Q (m[i]? >>= f) :=
  .seq (by rw [getElem?_eq_getElem h]; rfl) hf

theorem Ends.ask {c : Option Bool} {x y : Option β} (hc : c.isSome) (hx : c = some true → Ends Q x)
    (hy : c = some false → Ends Q y) : Ends Q (c >>= fun b => if b = true then x else y) := by
  obtain ⟨b, rfl⟩ := isSome_iff_exists.mp hc
  cases b with
  | false => exact hy rfl
  | true => exact hx rfl

theorem Ends.isSome {x : Option β} (h : Ends Q x) : x.isSome := by
  obtain ⟨b, rfl, -⟩ := h
  rfl

theorem isSome_isVerb : (isVerb r m i).isSome := by
  simp [isVerb]
  omega

theorem isSome_companionAt (hm : hi ≤ m.length) : (companionAt r m hi i).isSome := by
  unfold companionAt
  split
  · rfl
  · rename_i h
    simp only [Bool.or_eq_true, decide_eq_true_eq, not_or] at h
    refine Ends.isSome (Q := fun _ => True)
      (.read (by omega) fun field _ => .read (by omega) fun bank _ => .ask ?_ ?_ ?_)
    · simp [readsAll]
      omega
    · exact fun _ => .read (by omega) fun _ _ => .read (by omega) fun _ _ => ⟨_, rfl, trivial⟩
    · exact fun _ => ⟨_, rfl, trivial⟩

theorem isSome_noCompanion (hm : hi ≤ m.length) : (noCompanion r m hi i).isSome := by
  rw [noCompanion, isSome_map]
  exact isSome_companionAt hm

/-- A short unit has at least its prefix, its payload, the tag and the register, and these are in the stream. -/
theorem shortLen_ends :
    Ends (fun n => n ≠ 0 → ∃ p, m[i]? = some p ∧ p.val + 4 ≤ n ∧ n ≤ p.val + 5 ∧ i + p.val + 3 < m.length)
      (shortLen r m i) := by
  unfold shortLen
  split
  · exact ⟨0, rfl, fun h => absurd rfl h⟩
  · refine .read (by omega) fun p hp => .ask ?_ (fun h => ?_) fun _ => ⟨0, rfl, fun h => absurd rfl h⟩
    · simp
      omega
    · simp only [and_eq_true, Option.some.injEq, Bool.and_eq_true, decide_eq_true_eq] at h
      refine .read (by omega) fun _ _ => ⟨_, rfl, fun _ => ⟨p, hp, by omega, ?_, h.1.2⟩⟩
      split <;> omega

theorem isSome_opens : (opens r m i).isSome := by
  simp [opens, isSome_isVerb, shortLen_ends.isSome]

theorem isSome_quintetAt : (quintetAt r m i).isSome := by
  simp [quintetAt]
  grind

theorem isSome_octetAt (hm : hi ≤ m.length) : (octetAt r m hi i).isSome := by
  simp [octetAt, readsAll, isSome_noCompanion hm, isSome_quintetAt]
  grind

theorem isSome_template8At (hm : hi ≤ m.length) : (template8At r m hi i).isSome := by
  simp [template8At, readsAll, isSome_noCompanion hm]
  grind

theorem isSome_pairPrefixAt (hm : hi ≤ m.length) : (pairPrefixAt r m hi i).isSome := by
  unfold pairPrefixAt
  split
  · rfl
  · rename_i h
    simp only [Bool.or_eq_true, decide_eq_true_eq, not_or] at h
    refine Ends.isSome (Q := fun _ => True) (.ask (by simp [readsAll]; omega) (fun _ => ?_) fun _ => ?_)
    all_goals
      refine isSome_iff_exists.mp ?_ |>.imp fun _ h => ⟨h, trivial⟩
      simp [readsAll, isSome_noCompanion hm]
      grind

theorem isSome_nprefixAt : (nprefixAt r m i).isSome := by
  simp [nprefixAt, readsAll]
  grind

theorem isSome_fixed5At : (fixed5At r m i).isSome := by
  simp [fixed5At, readsAll]
  grind

theorem isSome_vprefixAt : (vprefixAt r m i).isSome := by
  simp [vprefixAt, readsAll]
  grind

theorem isSome_terminalAt : (terminalAt r m i).isSome := by
  simp [terminalAt, readsAll]
  grind

theorem isSome_trailerSingleAt : (trailerSingleAt r m i).isSome := by
  simp [trailerSingleAt, readsAll]
  grind

theorem isSome_c1fiveAt : (c1fiveAt r m i).isSome := by
  simp [c1fiveAt]
  omega

theorem isSome_repeatAt : (repeatAt r m i).isSome := by
  simp [repeatAt, readsAll]
  grind

/-- The bytes a form fixes together with its token, from its first one on. -/
def literal : Form → ByteString
  | .V verb field bank => [verb, 0, field, bank]
  | .W x field bank => [x, field, bank]
  | .S p _ _ => [p]
  | .B tag reg => [tag, reg]
  | .Q a b => [0x04, a, b, a, b]
  | .P a b | .D a b | .Y a b => [a, b]
  | .N => [0x09, 0x0C, 0x80, 0xFE, 0x01, 0x01]
  | .F w => [0x01, 0xA4, 0x00, 0xC1, w]
  | .X => [0x05, 0x10, 0xE2, 0x0E]
  | .E a b => [0x04, 0x40, 0x84, 0x18, 0x83, a, b, 0x40]
  | .T x => [0x01, 0x98, 0x02, 0x83, x, 0x83, 0x0E, 0x05]
  | .C h a b d => [h, a, b, 0xC1, d]
  | .R x => [0x30, 0x03, x, 0x03, 0x09]
  | .L => [0x0B, 0x01]
  | .A b | .raw b => [b]

/-- How many bytes a form has at the least, wherever the next one begins. -/
def fixedLen : Form → Nat
  | .W .. => 7
  | .S p .. => p.val + 4
  | f => (literal f).length

/-- The forms whose last field takes what is left before the next one. -/
def sliced : Form → Bool
  | .V .. | .S .. | .B .. => true
  | _ => false

theorem fixedLen_pos (f : Form) : 0 < fixedLen f := by
  cases f <;> simp [fixedLen, literal]

/-- A token read off the stream, which goes on at `j`. -/
structure Spans (m : ByteString) (t : Token) (j : Nat) : Prop where
  le_length : t.offset + fixedLen t.form ≤ m.length
  isPrefix : literal t.form <+: m.drop t.offset
  le : t.offset + fixedLen t.form ≤ j
  eq : sliced t.form = false → j = t.offset + fixedLen t.form

theorem spans_literal {f : Form} (hf : fixedLen f = (literal f).length) (h : literal f <+: m.drop i)
    (hj : j = i + fixedLen f) : Spans m ⟨i, f⟩ j := by
  have hl := h.length_le
  rw [List.length_drop] at hl
  have hp := fixedLen_pos f
  exact ⟨by simp only; omega, h, hj.ge, fun _ => hj⟩

theorem isVerb_eq_true (h : isVerb r m i = some true) : i + 3 < m.length ∧ m[i + 1]? = some 0 := by
  simp [isVerb, and_eq_true, reads, test] at h
  exact ⟨h.1, h.2.2.1⟩

theorem companionAt_le (h : companionAt r m hi i = some true) : i + 15 ≤ hi := by
  by_contra hlt
  rw [companionAt, if_pos (by simp; omega)] at h
  cases h

theorem of_length {c : Bool} (h : some (c && decide (k < n)) = some true) : k < n := by
  simp only [Option.some.injEq, Bool.and_eq_true, decide_eq_true_eq] at h
  exact h.2

theorem reads_eq_true : reads m i b = some true ↔ m[i]? = some b := by
  simp [reads, test]

theorem getElem?_congr (hi : i < m.length) (hk : k < m.length)
    (h : (do return (← m[i]?) == (← m[k]?) : Option Bool) = some true) : m[i]? = m[k]? := by
  rw [getElem?_eq_getElem hi, getElem?_eq_getElem hk] at h ⊢
  simpa using h

theorem quintetAt_eq_true (h : quintetAt r m i = some true) :
    i + 4 < m.length ∧ m[i]? = some 0x04 ∧ m[i + 1]? = m[i + 3]? ∧ m[i + 2]? = m[i + 4]? := by
  simp only [quintetAt, and_eq_true] at h
  obtain ⟨hlen, h0, h13, h24⟩ := h
  have hlt := of_length hlen
  exact ⟨hlt, reads_eq_true.mp h0, getElem?_congr (by omega) (by omega) h13, getElem?_congr (by omega) hlt h24⟩

theorem pairPrefixAt_lt (h : pairPrefixAt r m hi i = some true) : i + 1 < m.length := by
  by_contra hlt
  rw [pairPrefixAt, if_pos (by simp; omega)] at h
  cases h

theorem bare_lt {b c : Bool} (h : (some (b && decide (i + 1 < hi) && c) <&&> x) = some true) : i + 1 < hi := by
  simp only [and_eq_true, Option.some.injEq, Bool.and_eq_true, decide_eq_true_eq] at h
  exact h.1.1.2

theorem nil_prefix_drop : [] <+: m.drop i := nil_prefix

theorem prefix_five {a c d e : Byte} (h0 : m[i]? = some a) (h1 : m[i + 1]? = some b) (h2 : m[i + 2]? = some c)
    (h3 : m[i + 3]? = some d) (h4 : m[i + 4]? = some e) : [a, b, c, d, e] <+: m.drop i := by
  simp only [cons_prefix_drop, nil_prefix_drop, and_true]
  exact ⟨h0, h1, h2, h3, h4⟩

theorem spans_bare {tag reg : Byte} (hlen : i + 1 < m.length) (h0 : m[i]? = some tag) (h1 : m[i + 1]? = some reg)
    (hj : i + 2 ≤ j) : Spans m ⟨i, .B tag reg⟩ j :=
  ⟨hlen, cons_prefix_drop.mpr ⟨h0, cons_prefix_drop.mpr ⟨h1, nil_prefix_drop⟩⟩, hj, nofun⟩

theorem plainStep_ends (hm : hi ≤ m.length) (h : i < hi) :
    Ends (fun s => s.1.offset = i ∧ Spans m s.1 s.2) (plainStep r m hi i) := by
  refine .read (by omega) fun byte hb => .bind shortLen_ends fun sl _ hsl => ?_
  refine .ask (isSome_companionAt hm) (fun h => ?_) fun _ => ?_
  · have hlen := companionAt_le h
    refine .read (by omega) fun field h1 => .read (by omega) fun bank h2 => ⟨_, rfl, rfl, ?_⟩
    exact ⟨by simp only [fixedLen]; omega, by simp [literal, cons_prefix_drop, *], le_rfl, fun _ => rfl⟩
  refine .ask isSome_isVerb (fun h => ?_) fun _ => ?_
  · obtain ⟨hlen, h1⟩ := isVerb_eq_true h
    refine .seq (by simp [isSome_opens]) fun early _ => ?_
    refine .read (by omega) fun field h2 => .read hlen fun bank h3 => ⟨_, rfl, rfl, hlen, ?_, ?_, nofun⟩
    · simp only [literal, cons_prefix_drop, nil_prefix_drop, and_true]
      exact ⟨hb, h1, h2, h3⟩
    · simp only [fixedLen, literal, length_cons, length_nil]
      split <;> omega
  by_cases h : sl ≠ 0
  · obtain ⟨p, hp, hle, hge, hlen⟩ := hsl h
    rw [if_pos h]
    cases hb.symm.trans hp
    refine .read (by omega) fun _ _ => .read (by omega) fun _ _ => ⟨_, rfl, rfl, ?_, ?_, ?_, nofun⟩
    · simp only [fixedLen]
      omega
    · exact cons_prefix_drop.mpr ⟨hb, nil_prefix_drop⟩
    · simp only [fixedLen]
      omega
  rw [if_neg h]
  refine .ask isSome_quintetAt (fun h => ?_) fun _ => ?_
  · obtain ⟨hlen, h0, h13, h24⟩ := quintetAt_eq_true h
    refine .read (by omega) fun a h1 => .read (by omega) fun b h2 => ⟨_, rfl, rfl, spans_literal rfl ?_ rfl⟩
    exact prefix_five h0 h1 h2 (h13.symm.trans h1) (h24.symm.trans h2)
  refine .ask (isSome_pairPrefixAt hm) (fun h => .read (pairPrefixAt_lt h) fun next h1 => ⟨_, rfl, rfl, ?_⟩) fun _ => ?_
  · have hp : [byte, next] <+: m.drop i := cons_prefix_drop.mpr ⟨hb, cons_prefix_drop.mpr ⟨h1, nil_prefix_drop⟩⟩
    split <;> exact spans_literal rfl hp rfl
  refine .ask isSome_terminalAt (fun h => ⟨_, rfl, rfl, spans_literal rfl ?_ rfl⟩) fun _ => ?_
  · simp only [terminalAt, and_eq_true, readsAll_eq_true] at h
    exact h.2.1
  refine .ask isSome_trailerSingleAt (fun h => ⟨_, rfl, rfl, spans_literal rfl ?_ rfl⟩) fun _ => ?_
  · exact cons_prefix_drop.mpr ⟨hb, nil_prefix_drop⟩
  refine .ask isSome_nprefixAt (fun h => ⟨_, rfl, rfl, spans_literal rfl ?_ rfl⟩) fun _ => ?_
  · simp only [nprefixAt, and_eq_true, readsAll_eq_true] at h
    exact List.IsPrefix.trans (by exact ⟨_, rfl⟩) h.2
  refine .ask isSome_fixed5At (fun h => ?_) fun _ => ?_
  · simp only [fixed5At, and_eq_true, readsAll_eq_true, cons_prefix_drop] at h
    obtain ⟨hlen, h0, h1, h2, h3, -⟩ := h
    exact .read (of_length hlen) fun w h4 => ⟨_, rfl, rfl, spans_literal rfl (prefix_five h0 h1 h2 h3 h4) rfl⟩
  refine .ask isSome_vprefixAt (fun h => ⟨_, rfl, rfl, spans_literal rfl ?_ rfl⟩) fun _ => ?_
  · simp only [vprefixAt, and_eq_true, readsAll_eq_true] at h
    exact List.IsPrefix.trans (by exact ⟨_, rfl⟩) h.2
  refine .ask isSome_c1fiveAt (fun h => ?_) fun _ => ?_
  · simp only [c1fiveAt, and_eq_true] at h
    have hlen := of_length h.1
    refine .read (by omega) fun a h1 => .read (by omega) fun b h2 => .read hlen fun d h4 => ⟨_, rfl, rfl, ?_⟩
    exact spans_literal rfl (prefix_five hb h1 h2 (reads_eq_true.mp h.2.2.1) h4) rfl
  refine .ask isSome_repeatAt (fun h => ?_) fun _ => ?_
  · simp only [repeatAt, and_eq_true, readsAll_eq_true, cons_prefix_drop] at h
    obtain ⟨hlen, ⟨h0, h1, -⟩, h3, h4, -⟩ := h
    have := of_length hlen
    exact .read (by omega) fun x h2 => ⟨_, rfl, rfl, spans_literal rfl (prefix_five h0 h1 h2 h3 h4) rfl⟩
  refine .ask (by simp; omega) (fun h => ?_) fun _ => ?_
  · have hlt := bare_lt h
    refine .read (by omega) fun reg h1 => ⟨_, rfl, rfl, ?_⟩
    exact spans_bare (by omega) hb h1 (Nat.add_le_add_left (Nat.le_add_right ..) i)
  refine .ask (by simp; omega) (fun h => ?_) fun _ => ?_
  · have hlt := bare_lt h
    exact .read (by omega) fun reg h1 => ⟨_, rfl, rfl, spans_bare (by omega) hb h1 le_rfl⟩
  exact ⟨_, rfl, rfl, spans_literal rfl (cons_prefix_drop.mpr ⟨hb, nil_prefix_drop⟩) rfl⟩

/-- Tokens one after the other, from `i` to `j`. -/
inductive Tiles (m : ByteString) : Nat → List Token → Nat → Prop
  | nil (i : Nat) : Tiles m i [] i
  | cons {t : Token} {ts : List Token} {j k : Nat} : Spans m t j → Tiles m j ts k → Tiles m t.offset (t :: ts) k

theorem Tiles.single (h : Spans m t j) : Tiles m t.offset [t] j := .cons h (.nil j)

theorem tiles_literal {f : Form} (hf : fixedLen f = (literal f).length) (h : literal f <+: m.drop i)
    (hj : j = i + fixedLen f) : Tiles m i [⟨i, f⟩] j :=
  .single (t := ⟨i, f⟩) (spans_literal hf h hj)

theorem Tiles.append {us : List Token} (h : Tiles m i ts j) (hu : Tiles m j us k) : Tiles m i (ts ++ us) k := by
  induction h with
  | nil i => exact hu
  | cons ht _ ih => exact .cons ht (ih hu)

theorem Tiles.le_length (h : Tiles m i ts j) : ∀ t ∈ ts, t.offset + fixedLen t.form ≤ m.length := by
  induction h with
  | nil i => exact nofun
  | cons ht _ ih => exact forall_mem_cons.mpr ⟨ht.le_length, ih⟩

theorem Spans.lt (h : Spans m t j) : t.offset < j := by
  have hp := fixedLen_pos t.form
  have hle := h.le
  omega

theorem isSome_costOf (h : t.offset < m.length) : (costOf m t).isSome := by
  unfold costOf
  split
  · simpa using h
  · rfl

variable {fuel : Nat} {toks : List Token}

theorem isSome_simulateLoop (hm : hi ≤ m.length) {stop : Int} (hf : hi - i ≤ fuel) :
    (simulateLoop r m hi stop fuel i).isSome := by
  induction fuel generalizing i with
  | zero =>
    rw [simulateLoop, if_neg (by omega)]
    rfl
  | succ fuel ih =>
    unfold simulateLoop
    split
    · rename_i hlt
      refine Ends.isSome (Q := fun _ => True) (.bind (plainStep_ends hm (by omega)) fun (tok, j) _ h => ?_)
      obtain ⟨rfl, hs⟩ := h
      have hl := hs.le_length
      have hlt := hs.lt
      have hp := fixedLen_pos tok.form
      dsimp only at hl hlt hp hf
      exact .seq (isSome_costOf (by omega)) fun u _ => .seq (ih (by omega)) fun c _ => ⟨u + c, rfl, trivial⟩
    · rfl

theorem isSome_simulateCost (hm : hi ≤ m.length) : (simulateCost r m hi i).isSome :=
  isSome_simulateLoop hm le_rfl

theorem isSome_skipCost (hm : hi ≤ m.length) (h : i < m.length) : (skipCost r m hi i).isSome := by
  obtain ⟨c, hc⟩ := isSome_iff_exists.mp (isSome_simulateCost (r := r) (i := i + 1) hm)
  rw [skipCost, hc, test, getElem?_eq_getElem h]
  rfl

theorem isSome_cheaper {a b : Option Nat} (ha : a.isSome) (hb : b.isSome) : (cheaper a b).isSome := by
  obtain ⟨a, rfl⟩ := isSome_iff_exists.mp ha
  obtain ⟨b, rfl⟩ := isSome_iff_exists.mp hb
  rfl

theorem takesOctet_eq_true (h : takesOctet r m hi i = some true) :
    i + 7 < m.length ∧ [0x04, 0x40, 0x84, 0x18, 0x83] <+: m.drop i ∧ m[i + 7]? = some 0x40 := by
  simp only [takesOctet, octetAt, and_eq_true, readsAll_eq_true, reads_eq_true] at h
  obtain ⟨-, ⟨hlen, hp, h7, -⟩, -⟩ := h
  exact ⟨of_length hlen, hp, h7⟩

theorem takesTemplate_eq_true (h : takesTemplate r m hi i j = some true) :
    i + 7 < m.length ∧ [0x01, 0x98, 0x02, 0x83] <+: m.drop i ∧ [0x83, 0x0E, 0x05] <+: m.drop (i + 5) := by
  simp only [takesTemplate, template8At, and_eq_true, readsAll_eq_true] at h
  obtain ⟨-, ⟨hlen, hp, hq, -⟩, -⟩ := h
  exact ⟨of_length hlen, hp, hq⟩

theorem stutters_eq_true (hj : 2 ≤ j) (h : stutters r m hi j = some true) : [0x90, 0x03] <+: m.drop j := by
  simp only [stutters, and_eq_true, readsAll_eq_true, cons_prefix_drop] at h
  obtain ⟨-, ⟨-, -, h2, h3, -⟩, -⟩ := h
  rw [(by omega : j - 2 + 1 + 1 = j)] at h2 h3
  exact cons_prefix_drop.mpr ⟨h2, cons_prefix_drop.mpr ⟨h3, nil_prefix_drop⟩⟩

theorem loopStep_ends (hm : hi ≤ m.length) (h : i < hi) :
    Ends (fun s => Tiles m i s.1 s.2 ∧ i < s.2) (loopStep r m hi i) := by
  have hcost {k : Nat} := isSome_simulateCost (r := r) (i := k) hm
  have hskip := isSome_skipCost (r := r) hm (by omega : i < m.length)
  refine .ask ?_ (fun ho => ?_) fun _ => .bind (plainStep_ends hm h) fun (tok, nxt) _ hs => ?_
  · simp [takesOctet, isSome_octetAt hm, isSome_cheaper hcost hskip]
  · obtain ⟨hlen, hp, h7⟩ := takesOctet_eq_true ho
    refine .read (by omega) fun a h5 => .read (by omega) fun b h6 => ⟨_, rfl, tiles_literal rfl ?_ rfl, by simp⟩
    simp only [literal, cons_prefix_drop, nil_prefix_drop, and_true] at hp ⊢
    exact ⟨hp.1, hp.2.1, hp.2.2.1, hp.2.2.2.1, hp.2.2.2.2, h5, h6, h7⟩
  obtain ⟨rfl, hs⟩ := hs
  have hlt := hs.lt
  have hl := hs.le_length
  have hle := hs.le
  dsimp only at hs hl hle hlt ⊢
  split
  · rename_i p tag payload hform
    simp only [hform, fixedLen] at hl hle
    refine .ask ?_ (fun _ => ?_) fun _ => ?_
    · simp [yieldsToVerb, readsAll, isSome_isVerb, isSome_cheaper hskip hcost]
      omega
    · refine .read (by omega) fun b hb => ⟨_, rfl, ?_, by simp⟩
      exact tiles_literal rfl (cons_prefix_drop.mpr ⟨hb, nil_prefix_drop⟩) rfl
    refine .ask ?_ (fun ht => ?_) fun _ => ?_
    · simp [takesTemplate, isSome_template8At hm, isSome_cheaper hcost hcost]
    · obtain ⟨hlen, hp, hq⟩ := takesTemplate_eq_true ht
      refine .read (by omega) fun x h4 => ⟨_, rfl, tiles_literal rfl ?_ rfl, by simp⟩
      simp only [literal, cons_prefix_drop, nil_prefix_drop, and_true] at hp hq ⊢
      exact ⟨hp.1, hp.2.1, hp.2.2.1, hp.2.2.2, h4, hq⟩
    refine .ask ?_ (fun ht => ⟨_, rfl, .cons hs (tiles_literal rfl ?_ rfl), ?_⟩) fun _ => ?_
    · simp [stutters, readsAll, isSome_noCompanion hm, shortLen_ends.isSome]
      grind
    · exact stutters_eq_true (by omega) ht
    · dsimp only
      omega
    · exact ⟨_, rfl, .single hs, hlt⟩
  · exact ⟨_, rfl, .single hs, hlt⟩

/-- The positions at which a round of the loop begins. -/
inductive Reaches (r : Rule) (m : ByteString) (hi lo : Nat) : Nat → Prop
  | start : Reaches r m hi lo lo
  | step {i j : Nat} {ts : List Token} : Reaches r m hi lo i → i < hi → loopStep r m hi i = some (ts, j) →
      Reaches r m hi lo j

theorem tokenizeLoop_ends (hm : hi ≤ m.length) (hf : hi - i ≤ fuel) :
    Ends (fun toks => ∃ k, hi ≤ k ∧ Tiles m i toks k) (tokenizeLoop r m hi fuel i) := by
  induction fuel generalizing i with
  | zero =>
    rw [tokenizeLoop, if_neg (by omega)]
    exact ⟨[], rfl, i, by omega, .nil i⟩
  | succ fuel ih =>
    unfold tokenizeLoop
    split
    · rename_i hlt
      refine .bind (loopStep_ends hm hlt) fun (ts, j) _ ⟨hts, hj⟩ => ?_
      refine .bind (ih (by omega)) ?_
      rintro toks - ⟨k, hk, hks⟩
      exact ⟨_, rfl, k, hk, hts.append hks⟩
    · exact ⟨[], rfl, i, by omega, .nil i⟩

theorem tokenizeLoop_eq (hlt : i < hi) (h : tokenizeLoop r m hi fuel i = some toks) :
    ∃ f ts j rest, fuel = f + 1 ∧ loopStep r m hi i = some (ts, j) ∧ tokenizeLoop r m hi f j = some rest ∧
      toks = ts ++ rest := by
  cases fuel with
  | zero =>
    rw [tokenizeLoop, if_pos hlt] at h
    cases h
  | succ f =>
    simp only [tokenizeLoop, if_pos hlt, bind_eq_bind, bind_eq_some_iff, pure, Option.some.injEq] at h
    obtain ⟨⟨ts, j⟩, hs, rest, hr, rfl⟩ := h
    exact ⟨f, ts, j, rest, rfl, hs, hr, rfl⟩

theorem subset_of_reaches (h : tokenizeLoop r m hi fuel lo = some toks) (hr : Reaches r m hi lo i) :
    ∃ f rest, tokenizeLoop r m hi f i = some rest ∧ rest ⊆ toks := by
  induction hr with
  | start => exact ⟨fuel, toks, h, List.Subset.refl _⟩
  | step _ hlt hs ih =>
    obtain ⟨f, rest, hrest, hsub⟩ := ih
    obtain ⟨f', ts', j', rest', -, hs', hrest', rfl⟩ := tokenizeLoop_eq hlt hrest
    cases hs.symm.trans hs'
    exact ⟨f', rest', hrest', (append_subset.mp hsub).2⟩

theorem exists_round (hr : Reaches r m hi lo i) (h : tokenizeLoop r m hi fuel i = some toks) (ht : t ∈ toks) :
    ∃ k ts j, Reaches r m hi lo k ∧ k < hi ∧ loopStep r m hi k = some (ts, j) ∧ t ∈ ts := by
  induction fuel generalizing i toks with
  | zero =>
    rw [tokenizeLoop] at h
    split at h
    all_goals cases h
    cases ht
  | succ fuel ih =>
    by_cases hlt : i < hi
    · obtain ⟨f, ts, j, rest, hf, hs, hrest, rfl⟩ := tokenizeLoop_eq hlt h
      cases hf
      rcases mem_append.mp ht with ht | ht
      · exact ⟨i, ts, j, hr, hlt, hs, ht⟩
      · exact ih (.step hr hlt hs) hrest ht
    · rw [tokenizeLoop, if_neg hlt] at h
      cases h
      cases ht

theorem slice_append {a b c : Nat} (h : a ≤ b) : slice m a b ++ slice m b c = slice m a (max b c) := by
  rcases le_total b c with hc | hc
  · rw [max_eq_right hc, slice, slice, slice, (by omega : c - a = (b - a) + (c - b)), take_add, List.drop_drop,
      (by omega : a + (b - a) = b)]
  · rw [max_eq_left hc, slice, slice, Nat.sub_eq_zero_of_le hc, take_zero, append_nil]

theorem slice_of_prefix (h : bs <+: m.drop i) : slice m i (i + bs.length) = bs := by
  rw [slice, Nat.add_sub_cancel_left]
  exact (prefix_iff_eq_take.mp h).symm

theorem length_slice {a b : Nat} (h : b ≤ m.length) : (slice m a b).length = b - a := by
  rw [slice, length_take, List.length_drop]
  omega

theorem literal_append (h : bs <+: m.drop i) (n : Nat) :
    bs ++ slice m (i + bs.length) (i + n) = slice m i (i + max bs.length n) := by
  rw [← Nat.add_max_add_left, ← slice_append (Nat.le_add_right ..), slice_of_prefix h]

/-- The record of a token writes the token's bytes, up to the next one, and what the form fixes in any case. -/
theorem fieldsOf_ends (h : Spans m t j) (hn : t.offset + n ≤ j) :
    Ends (fun f => bytesOf f = slice m t.offset (t.offset + max (fixedLen t.form) n)) (fieldsOf m t.offset n t.form) := by
  obtain ⟨o, form⟩ := t
  obtain ⟨hlen, hp, hle, hex⟩ := h
  dsimp only at hlen hp hle hex hn ⊢
  have hlit := slice_of_prefix hp
  have hmax : sliced form = false → max (fixedLen form) n = fixedLen form := by
    intro hs
    have hj := hex hs
    omega
  cases form
  case V verb field bank => exact ⟨_, rfl, literal_append hp n⟩
  case B tag reg => exact ⟨_, rfl, literal_append hp n⟩
  case W x field bank =>
    rw [hmax rfl]
    exact ⟨_, rfl, literal_append hp 7⟩
  case S p tag payload =>
    simp only [fixedLen] at hlen
    refine .read (by omega) fun tag ht => .read (by omega) fun reg hr => ⟨_, rfl, ?_⟩
    have hq : slice m (o + p.val + 2) (o + p.val + 4) = [tag, reg] :=
      slice_of_prefix (cons_prefix_drop.mpr ⟨ht, cons_prefix_drop.mpr ⟨hr, nil_prefix_drop⟩⟩)
    calc [p] ++ slice m (o + 1) (o + 1 + p.val + 1) ++ [tag, reg] ++ slice m (o + p.val + 4) (o + n)
      _ = slice m o (o + 1) ++ slice m (o + 1) (o + p.val + 2) ++ slice m (o + p.val + 2) (o + p.val + 4) ++
          slice m (o + p.val + 4) (o + n) := by
        rw [hq, (by omega : o + 1 + p.val + 1 = o + p.val + 2)]
        exact congrArg (· ++ _ ++ _ ++ _) hlit.symm
      _ = slice m o (o + max (p.val + 4) n) := by
        rw [slice_append (by omega), max_eq_right (by omega), slice_append (by omega), max_eq_right (by omega),
          slice_append (by omega), Nat.add_assoc, Nat.add_max_add_left]
  all_goals exact ⟨_, rfl, (hmax rfl).symm ▸ hlit.symm⟩

def endOf (hi : Nat) : Nat → List Token → Nat
  | i, [] => i
  | _, t :: ts => endOf hi (t.offset + max (fixedLen t.form) (hi - t.offset)) ts

theorem endOf_spec (h : Tiles m i ts k) (hk : hi ≤ k) (hm : hi ≤ m.length) :
    i ≤ endOf hi i ts ∧ hi ≤ endOf hi i ts ∧ (i ≤ m.length → endOf hi i ts ≤ m.length) ∧
      (endOf hi i ts ≤ hi ↔ i ≤ hi ∧ ∀ t ∈ ts, t.offset + fixedLen t.form ≤ hi) := by
  induction h with
  | nil i => exact ⟨le_rfl, hk, id, by simp [endOf]⟩
  | @cons t ts j k hs htail ih =>
    have hle := hs.le
    have hl := hs.le_length
    cases htail with
    | nil =>
      simp only [endOf, mem_singleton, forall_eq]
      omega
    | @cons u us j' k hu htail =>
      obtain ⟨h1, h2, h3, h4⟩ := ih hk
      have hu := hu.le_length
      change _ ≤ endOf hi u.offset (u :: us) ∧ _ ≤ endOf hi u.offset (u :: us) ∧
        (_ → endOf hi u.offset (u :: us) ≤ _) ∧ (endOf hi u.offset (u :: us) ≤ hi ↔ _)
      rw [h4, forall_mem_cons (a := t)]
      refine ⟨by omega, h2, fun _ => h3 (by omega), fun h => ⟨by omega, by omega, h.2⟩, fun h => ⟨?_, h.2.2⟩⟩
      have := h.2.2 u mem_cons_self
      omega

/-- The claim's property of a run. -/
structure Adjoining (lo : Nat) (toks : List Token) (recs : List Record) : Prop where
  starts : ∀ t ∈ toks.head?, t.offset = lo
  increasing : (toks.map Token.offset).Pairwise (· < ·)
  offsets : recs.map Record.offset = toks.map Token.offset
  adjoining : recs.IsChain fun a b => a.offset + (bytesOf a.fields).length = b.offset

theorem recordsOf_ends (h : Tiles m i ts k) (hk : hi ≤ k) (hm : hi ≤ m.length) :
    Ends (fun recs => Adjoining i ts recs ∧ encode recs = slice m i (endOf hi i ts)) (recordsOf m hi ts) := by
  induction h with
  | nil i => exact ⟨[], rfl, ⟨nofun, .nil, rfl, .nil⟩, by simp [encode, endOf, slice]⟩
  | @cons t ts j k hs htail ih =>
    have hlt := hs.lt
    cases htail with
    | nil =>
      obtain ⟨f, hf, hbytes⟩ := fieldsOf_ends hs (n := hi - t.offset) (by omega)
      refine ⟨[⟨t.offset, f⟩], ?_, ⟨?_, pairwise_singleton .., rfl, .singleton _⟩, ?_⟩
      · simp [recordsOf, hf]
      · rintro _ ⟨⟩
        rfl
      · simpa [encode, endOf] using hbytes
    | @cons u us j' k hu htail =>
      obtain ⟨recs, hrecs, hadj, henc⟩ := ih hk
      have hle := hs.le
      have hlu := hu.le_length
      obtain ⟨f, hf, hbytes⟩ := fieldsOf_ends hs (n := u.offset - t.offset) (by omega)
      rw [(by omega : t.offset + max (fixedLen t.form) (u.offset - t.offset) = u.offset)] at hbytes
      refine ⟨⟨t.offset, f⟩ :: recs, ?_, ⟨?_, ?_, ?_, ?_⟩, ?_⟩
      · rw [recordsOf, hrecs]
        simp [hf]
      · rintro _ ⟨⟩
        rfl
      · have hinc := hadj.increasing
        refine pairwise_cons.mpr ⟨fun o ho => ?_, hinc⟩
        rcases mem_cons.mp ho with rfl | ho
        · exact hlt
        · exact hlt.trans ((pairwise_cons.mp hinc).1 o ho)
      · exact congrArg (t.offset :: ·) hadj.offsets
      · cases recs with
        | nil => exact .singleton _
        | cons rec recs =>
          have hrec : rec.offset = u.offset := (List.cons.inj hadj.offsets).1
          refine .cons_cons ?_ hadj.adjoining
          rw [hbytes, length_slice (by omega), hrec]
          dsimp only
          omega
      · rw [encode, flatMap_cons, hbytes, ← encode, henc, slice_append hlt.le]
        exact congrArg _ (max_eq_right (endOf_spec (.cons hu htail) hk hm).1)

/-- No round takes a form whose fixed bytes cross the end of the range. -/
def StaysInside (r : Rule) (m : ByteString) (lo hi : Nat) : Prop :=
  ∀ i ts j, Reaches r m hi lo i → i < hi → loopStep r m hi i = some (ts, j) →
    ∀ t ∈ ts, t.offset + fixedLen t.form ≤ hi

/-- The tokens and the records of `mcode[lo:hi]` are there, adjoin, and write it back. -/
def Lossless (r : Rule) (m : ByteString) (lo hi : Nat) : Prop :=
  ∃ toks recs, tokenize r m hi lo = some toks ∧ decode m r lo hi = some recs ∧ Adjoining lo toks recs ∧
    encode recs = slice m lo hi

theorem decode_ends (h : lo ≤ hi) (hm : hi ≤ m.length) :
    ∃ toks recs, tokenize r m hi lo = some toks ∧ decode m r lo hi = some recs ∧ Adjoining lo toks recs ∧
      (encode recs = slice m lo hi ↔ ∀ t ∈ toks, t.offset + fixedLen t.form ≤ hi) := by
  obtain ⟨toks, htoks, k, hk, htiles⟩ := tokenizeLoop_ends (r := r) hm (le_refl (hi - lo))
  obtain ⟨recs, hrecs, hadj, henc⟩ := recordsOf_ends htiles hk hm
  obtain ⟨hlo, hhi, hlen, hiff⟩ := endOf_spec htiles hk hm
  refine ⟨toks, recs, htoks, by rw [decode, tokenize, htoks]; exact hrecs, hadj, ?_⟩
  have hend : encode recs = slice m lo hi ↔ endOf hi lo toks ≤ hi := by
    rw [henc]
    constructor
    · intro he
      have hl := congrArg List.length he
      rw [length_slice (hlen (by omega)), length_slice hm] at hl
      omega
    · intro he
      rw [le_antisymm he hhi]
  rw [hend, hiff]
  exact and_iff_right h

/-- The codec writes back a range just where no form it takes there reaches over its end. -/
theorem lossless_iff (r : Rule) (m : ByteString) (lo hi : Nat) (h : lo ≤ hi) (hm : hi ≤ m.length) :
    Lossless r m lo hi ↔ StaysInside r m lo hi := by
  obtain ⟨toks, recs, htoks, hrecs, hadj, hiff⟩ := decode_ends (r := r) h hm
  have hl : Lossless r m lo hi ↔ encode recs = slice m lo hi := by
    constructor
    · rintro ⟨toks', recs', -, hrecs', -, he⟩
      cases hrecs.symm.trans hrecs'
      exact he
    · exact fun he => ⟨toks, recs, htoks, hrecs, hadj, he⟩
  rw [hl, hiff]
  constructor
  · intro hin i ts j hi hlt hs t ht
    obtain ⟨f, rest, hrest, hsub⟩ := subset_of_reaches htoks hi
    obtain ⟨f', ts', j', rest', -, hs', -, rfl⟩ := tokenizeLoop_eq hlt hrest
    cases hs.symm.trans hs'
    exact hin t (hsub (mem_append_left _ ht))
  · intro hin t ht
    obtain ⟨k, ts, j, hr, hlt, hs, hmem⟩ := exists_round .start htoks ht
    exact hin k ts j hr hlt hs t hmem

/-- One byte of a verb, whose other seven stand after the range. -/
theorem not_lossless_verb : ¬Lossless fullRule [0xA1, 0, 0, 5, 1, 2, 3, 4] 0 1 := by
  rintro ⟨toks, recs, -, hrecs, -, he⟩
  have hd : decode [0xA1, 0, 0, 5, 1, 2, 3, 4] fullRule 0 1 = some [⟨0, .V 0xA1 0 5 []⟩] := by decide
  cases hd.symm.trans hrecs
  cases he

theorem lossless_iff_verb :
    Lossless fullRule [0xA1, 0, 0, 5, 1, 2, 3, 4] 0 8 ↔ StaysInside fullRule [0xA1, 0, 0, 5, 1, 2, 3, 4] 0 8 :=
  lossless_iff _ _ _ _ (by decide) (by decide)

/-- Nothing is lost up to the end of the blob, whatever the rule. -/
theorem lossless_of_length (r : Rule) (m : ByteString) (h : lo ≤ m.length) : Lossless r m lo m.length := by
  obtain ⟨toks, recs, htoks, hrecs, hadj, hiff⟩ := decode_ends (r := r) h le_rfl
  refine ⟨toks, recs, htoks, hrecs, hadj, hiff.mpr fun t ht => ?_⟩
  obtain ⟨toks', htoks', k, -, htiles⟩ := tokenizeLoop_ends (r := r) (i := lo) le_rfl (le_refl (m.length - lo))
  cases htoks.symm.trans htoks'
  exact htiles.le_length t ht

theorem lossless_of_length_verb : Lossless fullRule [0xA1, 0, 0, 5, 1, 2, 3, 4] 3 8 :=
  lossless_of_length _ _ (by decide)

end Onnxsim.Mcode.RoundTrip
