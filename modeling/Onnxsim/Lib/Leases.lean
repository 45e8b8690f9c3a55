import Mathlib.Order.Basic

namespace Onnxsim.Lib.Leases

variable {Holder Grant Time : Type}

/-- What a holder was granted, since when, and for how long. -/
structure Lease (Holder Grant Time : Type) where
  holder : Holder
  grant : Grant
  since : Time
  term : Int

variable (elapsed : Time → Time → Int)

def Lease.Alive (l : Lease Holder Grant Time) (now : Time) : Prop := elapsed now l.since ≤ l.term

instance (l : Lease Holder Grant Time) (now : Time) : Decidable (l.Alive elapsed now) :=
  inferInstanceAs (Decidable (_ ≤ _))

/-- A new lease is taken up unless another holder's lease is alive. -/
def offer [DecidableEq Holder] (current : Option (Lease Holder Grant Time)) (now : Time)
    (new : Lease Holder Grant Time) : Option (Lease Holder Grant Time) :=
  match current with
  | none => some new
  | some l => if new.holder ≠ l.holder ∧ l.Alive elapsed now then some l else some new

def settle (current : Option (Lease Holder Grant Time)) (now : Time) : Option (Lease Holder Grant Time) :=
  match current with
  | none => none
  | some l => if l.Alive elapsed now then some l else none

/-- The grant in force, which without a lease is a default. -/
def inForce (default : Grant) (current : Option (Lease Holder Grant Time)) : Grant :=
  match current with
  | none => default
  | some l => l.grant

variable {elapsed} {current : Option (Lease Holder Grant Time)} {l new : Lease Holder Grant Time} {now : Time}

theorem offer_of_alive [DecidableEq Holder] (halive : l.Alive elapsed now) (hne : new.holder ≠ l.holder) :
    offer elapsed (some l) now new = some l := by
  rw [offer, if_pos ⟨hne, halive⟩]

theorem settle_of_alive (halive : l.Alive elapsed now) : settle elapsed (some l) now = some l := if_pos halive

theorem settle_of_not_alive (halive : ¬ l.Alive elapsed now) : settle elapsed (some l) now = none := if_neg halive

theorem settle_eq_some (h : settle elapsed current now = some l) : current = some l ∧ l.Alive elapsed now := by
  cases current with
  | none => cases h
  | some k =>
    by_cases hk : k.Alive elapsed now
    · rw [settle_of_alive hk] at h
      cases h
      exact ⟨rfl, hk⟩
    · rw [settle_of_not_alive hk] at h
      cases h

end Onnxsim.Lib.Leases
