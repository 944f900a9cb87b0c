import Fortnight.Calendar.Date

/-!
# Instants

A moment in universal time, to the nanosecond. A leap second belongs to the
second before it: it is second 59 of its minute with a fraction of one second
or more. Instants are ordered by a rank that counts nanoseconds and leaves room
for a leap second after every second.
-/

namespace Fortnight

structure Instant where
  date : Date
  /-- Seconds since the start of the day. -/
  second : Nat
  /-- Nanoseconds since the start of the second. -/
  nano : Nat
  second_lt : second < 86400
  nano_lt : nano < 1000000000 ∨ nano < 2000000000 ∧ second % 60 = 59
  deriving DecidableEq

namespace Instant

/-- Twice as many nanoseconds as a second has are set aside for each second. -/
def rank (t : Instant) : Int :=
  (t.date.number * 86400 + t.second) * 2000000000 + t.nano

theorem ext_rank {a b : Instant} (h : a.rank = b.rank) : a = b := by
  obtain ⟨da, sa, na, hsa, hna⟩ := a
  obtain ⟨db, sb, nb, hsb, hnb⟩ := b
  simp only [rank] at h
  have hd : da.number = db.number := by omega
  have hs : sa = sb := by omega
  have hn : na = nb := by omega
  cases Date.ext_number hd
  subst hs hn
  rfl

instance : LT Instant := ⟨fun a b => a.rank < b.rank⟩

instance : LE Instant := ⟨fun a b => a.rank ≤ b.rank⟩

instance (a b : Instant) : Decidable (a < b) :=
  inferInstanceAs (Decidable (a.rank < b.rank))

instance (a b : Instant) : Decidable (a ≤ b) :=
  inferInstanceAs (Decidable (a.rank ≤ b.rank))

theorem lt_iff {a b : Instant} : a < b ↔ a.rank < b.rank := Iff.rfl

theorem le_iff {a b : Instant} : a ≤ b ↔ a.rank ≤ b.rank := Iff.rfl

/-- The first supported instant. -/
def first : Instant :=
  ⟨Date.first, 0, 0, by decide, by decide⟩

end Instant

def Date.startOfDay (d : Date) : Instant :=
  ⟨d, 0, 0, by decide, by decide⟩

theorem Instant.first_le (t : Instant) : Instant.first ≤ t := by
  have := t.date.first_le
  simp only [Instant.le_iff, Instant.rank, Instant.first, Date.first]
  omega

end Fortnight
