import Mathlib.Data.List.Basic

namespace Onnxsim.Lib.Stores

open List

variable {ι κ α : Type} {is : List ι} {place : ι → κ} {f : ι → α} {s t : κ → α}

/-- From `s` to `t` the places of `is` are overwritten and nothing else is. -/
structure Written (is : List ι) (place : ι → κ) (f : ι → α) (s t : κ → α) : Prop where
  inside : ∀ i ∈ is, t (place i) = f i
  outside : ∀ k, (∀ i ∈ is, place i ≠ k) → t k = s k

/-- No two elements of `is` share a place. -/
def Separate (is : List ι) (place : ι → κ) : Prop := ∀ i ∈ is, ∀ j ∈ is, place i = place j → i = j

theorem Written.unique (h : Written is place f s t) {t' : κ → α} (h' : Written is place f s t') : t = t' := by
  funext k
  by_cases hk : ∃ i ∈ is, place i = k
  · obtain ⟨i, hi, rfl⟩ := hk
    rw [h.inside i hi, h'.inside i hi]
  · have hout : ∀ i ∈ is, place i ≠ k := fun i hi heq => hk ⟨i, hi, heq⟩
    rw [h.outside k hout, h'.outside k hout]

theorem Written.refl (h : ∀ i ∈ is, s (place i) = f i) : Written is place f s s := ⟨h, fun _ _ => rfl⟩

/-- What held of a place before and holds of the written ones holds of it afterwards. -/
theorem Written.cases (h : Written is place f s t) {p : α → Prop} {k : κ}
    (hinside : ∀ i ∈ is, place i = k → p (f i)) (houtside : (∀ i ∈ is, place i ≠ k) → p (s k)) : p (t k) := by
  by_cases hk : ∃ i ∈ is, place i = k
  · obtain ⟨i, hi, rfl⟩ := hk
    rw [h.inside i hi]
    exact hinside i hi rfl
  · have hout : ∀ i ∈ is, place i ≠ k := fun i hi heq => hk ⟨i, hi, heq⟩
    rw [h.outside k hout]
    exact houtside hout

variable [DecidableEq κ]

def write (is : List ι) (place : ι → κ) (f : ι → α) (s : κ → α) (k : κ) : α :=
  match is.find? fun i => place i = k with
  | some i => f i
  | none => s k

theorem written_write (h : Separate is place) (f : ι → α) (s : κ → α) :
    Written is place f s (write is place f s) where
  inside i hi := by
    obtain ⟨j, hj⟩ := Option.isSome_iff_exists.mp (find?_isSome (p := fun j => place j = place i)
      |>.mpr ⟨i, hi, by simp⟩)
    have heq : j = i := h j (mem_of_find?_eq_some hj) i hi (by simpa using find?_some hj)
    rw [write, hj, heq]
  outside k hk := by
    have hnone : is.find? (fun i => place i = k) = none := by simpa using hk
    rw [write, hnone]

end Onnxsim.Lib.Stores

namespace Onnxsim.Lib.Memories

open List Option

variable {B V : Type}

abbrev Memory (B V : Type) := B → Nat → V

/-- A place inside a buffer. -/
structure Pointer (B : Type) where
  buffer : B
  offset : Nat

def Pointer.add (p : Pointer B) (n : Nat) : Pointer B := ⟨p.buffer, p.offset + n⟩

def read (m : Memory B V) (p : Pointer B) (n : Nat) : List V := (List.range n).map fun k => m p.buffer (p.offset + k)

/-- The cells from `p` on take the values; all others stay. -/
def write [DecidableEq B] (m : Memory B V) (p : Pointer B) (vs : List V) : Memory B V := fun b k =>
  if b = p.buffer ∧ p.offset ≤ k then (vs[k - p.offset]?).getD (m b k) else m b k

/-- `row` in the place of as many values from `offset` on. -/
def overwrite (offset : Nat) (row vs : List V) : List V := vs.take offset ++ row ++ vs.drop (offset + row.length)

/-- No cell is among both the `n` from `p` on and the `k` from `q` on. -/
def Apart (p : Pointer B) (n : Nat) (q : Pointer B) (k : Nat) : Prop :=
  p.buffer = q.buffer → p.offset + n ≤ q.offset ∨ q.offset + k ≤ p.offset

theorem Apart.symm {p q : Pointer B} {n k : Nat} (h : Apart p n q k) : Apart q k p n := fun heq => (h heq.symm).symm

variable {offset : Nat}

@[simp] theorem length_read (m : Memory B V) (p : Pointer B) (n : Nat) : (read m p n).length = n := by
  rw [read, length_map, length_range]

@[simp] theorem getElem_read (m : Memory B V) (p : Pointer B) {n k : Nat} (h : k < (read m p n).length) :
    (read m p n)[k] = m p.buffer (p.offset + k) := by
  simp [read]

theorem length_overwrite {row vs : List V} (h : offset + row.length ≤ vs.length) :
    (overwrite offset row vs).length = vs.length := by
  rw [overwrite, length_append, length_append, length_take, List.length_drop]
  omega

theorem overwrite_zero {row vs : List V} (h : row.length = vs.length) : overwrite 0 row vs = row := by
  rw [overwrite, take_zero, nil_append, Nat.zero_add, drop_eq_nil_of_le (Nat.le_of_eq h.symm),
    append_nil]

variable [DecidableEq B] {m s : Memory B V} {p q : Pointer B} {vs : List V} {n k : Nat}

/-- Reading what was written into: the old values, with the new ones in their place. -/
theorem read_write_add (h : offset + vs.length ≤ n) :
    read (write m (p.add offset) vs) p n = overwrite offset vs (read m p n) := by
  apply ext_getElem
  · rw [length_read, length_overwrite (by rwa [length_read]), length_read]
  · intro k hk hk'
    rw [length_read] at hk
    rw [getElem_read]
    simp only [write, Pointer.add, overwrite, getElem_append, length_take, length_append, length_read,
      getElem_take, getElem_drop, getElem_read, true_and]
    by_cases hlow : k < offset
    · rw [if_neg (by omega), dif_pos (by omega), dif_pos (by omega)]
    · by_cases hin : k < offset + vs.length
      · have hidx : k - min offset n = p.offset + k - (p.offset + offset) := by omega
        rw [if_pos (by omega), dif_pos (by omega), dif_neg (by omega), getElem?_eq_getElem (by omega),
          getD_some]
        simp only [hidx]
      · rw [if_pos (by omega), dif_neg (by omega), getElem?_eq_none (by omega), getD_none]
        congr 1
        omega

theorem read_write (h : vs.length = n) : read (write m p vs) p n = vs := by
  have hp : write m p vs = write m (p.add 0) vs := rfl
  rw [hp, read_write_add (by omega), overwrite_zero (by rw [length_read, h])]

theorem read_write_of_apart (h : Apart p n q vs.length) : read (write m q vs) p n = read m p n := by
  apply ext_getElem
  · rw [length_read, length_read]
  · intro k hk hk'
    rw [length_read] at hk
    rw [getElem_read, getElem_read, write]
    by_cases hb : p.buffer = q.buffer ∧ q.offset ≤ p.offset + k
    · have hsep := h hb.1
      rw [if_pos hb, getElem?_eq_none (by omega), getD_none]
    · rw [if_neg hb]

theorem read_copied {b : B} (hb : p.buffer = b) (h : p.offset + n ≤ k) :
    read (write m ⟨b, 0⟩ (read s ⟨b, 0⟩ k)) p n = read s p n := by
  apply ext_getElem
  · rw [length_read, length_read]
  · intro i hi hi'
    rw [length_read] at hi
    rw [getElem_read, getElem_read, write, if_pos ⟨hb, Nat.zero_le _⟩,
      getElem?_eq_getElem (by rw [length_read]; omega), getD_some, getElem_read]
    simp [hb]

/-- Writing back what was read with some values replaced changes no more than those. -/
theorem write_overwrite_read (h : offset + vs.length ≤ n) :
    write m p (overwrite offset vs (read m p n)) = write m (p.add offset) vs := by
  have hlen : (overwrite offset vs (read m p n)).length = n := by
    rw [length_overwrite (by rwa [length_read]), length_read]
  funext b k
  by_cases hb : b = p.buffer ∧ p.offset ≤ k ∧ k < p.offset + n
  · obtain ⟨rfl, hk, hkn⟩ := hb
    have hcell : ∀ m' : Memory B V, ∃ h : k - p.offset < (read m' p n).length,
        m' p.buffer k = (read m' p n)[k - p.offset] := by
      intro m'
      have hlt : k - p.offset < (read m' p n).length := by
        rw [length_read]
        omega
      exact ⟨hlt, by rw [getElem_read, Nat.add_sub_cancel' hk]⟩
    obtain ⟨_, hwhole⟩ := hcell (write m p (overwrite offset vs (read m p n)))
    obtain ⟨_, hpart⟩ := hcell (write m (p.add offset) vs)
    rw [hwhole, hpart]
    simp only [read_write hlen, read_write_add h]
  · rw [write, write, Pointer.add]
    by_cases hcell : b = p.buffer ∧ p.offset ≤ k
    · have hk : p.offset + n ≤ k := by
        by_contra hlt
        exact hb ⟨hcell.1, hcell.2, by omega⟩
      rw [if_pos hcell, getElem?_eq_none (by omega), if_pos ⟨hcell.1, by simp only; omega⟩,
        getElem?_eq_none (by simp only; omega)]
    · rw [if_neg hcell, if_neg]
      intro hin
      exact hcell ⟨hin.1, by have := hin.2; simp only at this; omega⟩

end Onnxsim.Lib.Memories
