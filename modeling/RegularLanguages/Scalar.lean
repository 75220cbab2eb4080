/-!
# Neighbouring characters

Characters are the Unicode scalar values in increasing order, from U+0000 to `Scalar.last`. The
order has one gap, the surrogates: U+D7FF and U+E000 are neighbours. `next?` and `prev?` step to
a neighbour and are `none` at the ends of the domain.
-/

namespace RegularLanguages.Scalar

/-- The least character. -/
def first : Char := Char.ofNat 0

/-- The greatest character, U+10FFFF. -/
def last : Char := Char.ofNat 0x10FFFF

/-- The character after `c`. -/
def next? (c : Char) : Option Char :=
  if c.toNat = 0xD7FF then some (Char.ofNat 0xE000)
  else if c.toNat = 0x10FFFF then none
  else some (Char.ofNat (c.toNat + 1))

/-- The character before `c`. -/
def prev? (c : Char) : Option Char :=
  if c.toNat = 0xE000 then some (Char.ofNat 0xD7FF)
  else if c.toNat = 0 then none
  else some (Char.ofNat (c.toNat - 1))

/-! ## Neighbours and the order -/

theorem le_iff_toNat {a b : Char} : a ≤ b ↔ a.toNat ≤ b.toNat := Iff.rfl

theorem lt_iff_toNat {a b : Char} : a < b ↔ a.toNat < b.toNat := Iff.rfl

theorem toNat_valid (c : Char) : c.toNat < 0xD800 ∨ 0xDFFF < c.toNat ∧ c.toNat < 0x110000 := c.valid

theorem toNat_ofNat {n : Nat} (h : n.isValidChar) : (Char.ofNat n).toNat = n := by
  have hn : Char.ofNat n = Char.ofNatAux n h := dif_pos h
  rw [hn]
  rfl

/-- `next? c` is the least character above `c`. -/
theorem lt_iff_of_next? {c d : Char} (h : next? c = some d) (x : Char) : c < x ↔ d ≤ x := by
  have hc := toNat_valid c
  have hx := toNat_valid x
  unfold next? at h
  split at h
  · cases h
    rw [lt_iff_toNat, le_iff_toNat, toNat_ofNat (by decide)]
    omega
  · split at h
    · cases h
    · cases h
      rw [lt_iff_toNat, le_iff_toNat, toNat_ofNat (by unfold Nat.isValidChar; omega)]
      omega

/-- Only the greatest character has no next one. -/
theorem le_of_next?_eq_none {c : Char} (h : next? c = none) (x : Char) : x ≤ c := by
  have hx := toNat_valid x
  unfold next? at h
  split at h
  · cases h
  · split at h
    · rw [le_iff_toNat]
      omega
    · cases h

/-- `prev? d` is the greatest character below `d`. -/
theorem lt_iff_of_prev? {c d : Char} (h : prev? d = some c) (x : Char) : x < d ↔ x ≤ c := by
  have hd := toNat_valid d
  have hx := toNat_valid x
  unfold prev? at h
  split at h
  · cases h
    rw [lt_iff_toNat, le_iff_toNat, toNat_ofNat (by decide)]
    omega
  · split at h
    · cases h
    · cases h
      rw [lt_iff_toNat, le_iff_toNat, toNat_ofNat (by unfold Nat.isValidChar; omega)]
      omega

/-- Only the least character has no previous one. -/
theorem le_of_prev?_eq_none {d : Char} (h : prev? d = none) (x : Char) : d ≤ x := by
  have hd := toNat_valid d
  unfold prev? at h
  split at h
  · cases h
  · split at h
    · rw [le_iff_toNat]
      omega
    · cases h

theorem first_le (c : Char) : first ≤ c := Nat.zero_le _

theorem le_last (c : Char) : c ≤ last := le_of_next?_eq_none (by decide) c

end RegularLanguages.Scalar
