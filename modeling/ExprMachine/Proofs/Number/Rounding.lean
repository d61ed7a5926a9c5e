import ExprMachine.Number.Decimal

/-!
# Rounding is exact where it can be

A quotient that is a double is rounded to that double. So the decimal that a double is exactly is
read back as this double, and so is the shortest of its decimals, which is chosen by reading.

* `ofFields_magnitude` — a double is its sign and its magnitude;
* `significand_add` — the magnitude is the significand behind the exponent field;
* `targetExponent_eq` — the exponent of a quotient that needs no rounding;
* `ofRatio_eq` — such a quotient is the double;
* `exact_readsBack`, `shortest_readsBack` — the decimals of a double.
-/

namespace ExprMachine

namespace Binary64

/-! ### Fields -/

theorem toNat_ofFields (negative : Bool) {m : Nat} (h : m < signWeight) :
    (ofFields negative m).bits.toNat = m + if negative then signWeight else 0 := by
  have hlt : (m + if negative then signWeight else 0) < 2 ^ 64 := by
    cases negative <;> simp [signWeight] at h ⊢ <;> omega
  rw [ofFields, Nat.mod_eq_of_lt h]
  exact UInt64.toNat_ofNat_of_lt' hlt

theorem magnitude_ofFields (negative : Bool) {m : Nat} (h : m < signWeight) :
    (ofFields negative m).magnitude = m := by
  rw [magnitude, toNat_ofFields negative h]
  cases negative
  · exact Nat.mod_eq_of_lt h
  · show (m + signWeight) % signWeight = m
    rw [Nat.add_mod_right, Nat.mod_eq_of_lt h]

theorem isNegative_ofFields (negative : Bool) {m : Nat} (h : m < signWeight) :
    (ofFields negative m).isNegative = negative := by
  rw [isNegative, toNat_ofFields negative h]
  cases negative
  · simpa using h
  · simp

theorem magnitude_lt (x : Binary64) : x.magnitude < signWeight :=
  Nat.mod_lt _ (by decide)

/-- A double is its sign and its magnitude. -/
theorem ofFields_magnitude (x : Binary64) : ofFields x.isNegative x.magnitude = x := by
  have hbits : x.bits.toNat < 2 ^ 64 := x.bits.toNat_lt
  have hsplit : (x.magnitude + if x.isNegative then signWeight else 0) = x.bits.toNat := by
    unfold magnitude isNegative
    by_cases h : signWeight ≤ x.bits.toNat
    · simp only [h, decide_true, if_true]
      simp only [signWeight] at h ⊢
      omega
    · simp only [h, decide_false, Bool.false_eq_true, if_false]
      exact Nat.mod_eq_of_lt (Nat.not_le.1 h)
  obtain ⟨bits⟩ := x
  rw [ofFields, Nat.mod_eq_of_lt (magnitude_lt _), hsplit]
  simp

theorem neg_ofFields (negative : Bool) {m : Nat} (h : m < signWeight) :
    (ofFields negative m).neg = ofFields (!negative) m := by
  rw [neg, isNegative_ofFields negative h, magnitude_ofFields negative h]

/-! ### Significands -/

theorem significand_lt (x : Binary64) : x.significand < 2 * exponentWeight := by
  unfold significand
  have hmod : x.magnitude % exponentWeight < exponentWeight := Nat.mod_lt _ (by decide)
  split <;> omega

/-- The significand is left aligned, except at the least exponent. -/
theorem significand_aligned (x : Binary64) :
    exponentWeight ≤ x.significand ∨ x.exponent = -1074 := by
  unfold significand exponent
  split
  · exact .inr rfl
  · exact .inl (Nat.le_add_left _ _)

theorem exponent_ge (x : Binary64) : -1074 ≤ x.exponent := by
  unfold exponent
  split
  · exact Int.le_refl _
  · rename_i h
    have hpos : 1 ≤ x.magnitude / exponentWeight :=
      (Nat.le_div_iff_mul_le (by decide)).2 (by omega)
    omega

theorem exponent_le {x : Binary64} (h : x.isFinite = true) : x.exponent ≤ 971 := by
  have hlt : x.magnitude < 2047 * exponentWeight := of_decide_eq_true h
  unfold exponent
  split
  · decide
  · have hdiv : x.magnitude / exponentWeight < 2047 := (Nat.div_lt_iff_lt_mul (by decide)).2 hlt
    omega

/-- The leading bit of the significand raises the exponent field by one. -/
theorem significand_add (x : Binary64) :
    x.significand + (x.exponent + 1074).toNat * exponentWeight = x.magnitude := by
  unfold significand exponent
  split
  · exact Nat.add_zero _
  · rename_i h
    have hpos : 1 ≤ x.magnitude / exponentWeight :=
      (Nat.le_div_iff_mul_le (by decide)).2 (by omega)
    obtain ⟨field, hfield⟩ := Nat.exists_eq_add_of_le' hpos
    have hdivide := Nat.div_add_mod' x.magnitude exponentWeight
    rw [hfield, Nat.succ_mul] at hdivide
    have hexponent :
        (((x.magnitude / exponentWeight : Nat) : Int) - 1075 + 1074).toNat = field := by
      omega
    rw [hexponent]
    omega

theorem significand_pos {x : Binary64} (h : x.magnitude ≠ 0) : 0 < x.significand := by
  unfold significand
  split
  · exact Nat.pos_of_ne_zero h
  · exact Nat.lt_of_lt_of_le (by decide) (Nat.le_add_left exponentWeight _)

/-! ### Quotients that are doubles -/

/-- One exponent less is twice the quotient. -/
theorem scaled_pred (num den : Nat) (e : Int) :
    (scaled num den (e - 1)).1 = 2 * (scaled num den e).1 ∧
        (scaled num den (e - 1)).2 = (scaled num den e).2 ∨
      (scaled num den (e - 1)).1 = (scaled num den e).1 ∧
        2 * (scaled num den (e - 1)).2 = (scaled num den e).2 := by
  by_cases h : 1 ≤ e
  · right
    have hup : e.toNat = (e - 1).toNat + 1 := by omega
    have hdown : (-(e - 1)).toNat = (-e).toNat := by omega
    simp only [scaled, hup, hdown, Nat.pow_eq, Nat.pow_succ]
    exact ⟨trivial, by rw [Nat.mul_comm 2, Nat.mul_assoc]⟩
  · left
    have hup : (e - 1).toNat = e.toNat := by omega
    have hdown : (-(e - 1)).toNat = (-e).toNat + 1 := by omega
    simp only [scaled, hup, hdown, Nat.pow_eq, Nat.pow_succ]
    exact ⟨by rw [Nat.mul_comm 2, Nat.mul_assoc], trivial⟩

section Quotients

variable {num den s : Nat} {e : Int}

/-- The logarithms of a quotient and of the significand it has at an exponent. -/
theorem log2_le_of_scaled (hnum : num ≠ 0) (hs : s < 2 * exponentWeight)
    (h : (scaled num den e).1 = s * (scaled num den e).2) :
    (num.log2 : Int) - den.log2 - 53 ≤ e := by
  have hlow : 2 ^ num.log2 ≤ num := Nat.log2_self_le hnum
  have hhigh : den < 2 ^ (den.log2 + 1) := Nat.lt_log2_self
  have hbound : 2 ^ (num.log2 + (-e).toNat) < 2 ^ (53 + (den.log2 + 1) + e.toNat) := by
    have hleft : 2 ^ (num.log2 + (-e).toNat) ≤ num * 2 ^ (-e).toNat := by
      rw [Nat.pow_add]
      exact Nat.mul_le_mul_right _ hlow
    have hden : den * 2 ^ e.toNat < 2 ^ (den.log2 + 1) * 2 ^ e.toNat :=
      Nat.mul_lt_mul_of_pos_right hhigh (Nat.two_pow_pos _)
    have hright : s * (den * 2 ^ e.toNat) < 2 ^ 53 * (2 ^ (den.log2 + 1) * 2 ^ e.toNat) :=
      Nat.mul_lt_mul_of_lt_of_lt hs hden
    have heq : num * 2 ^ (-e).toNat = s * (den * 2 ^ e.toNat) := h
    rw [Nat.pow_add 2 (53 + (den.log2 + 1)), Nat.pow_add 2 53, Nat.mul_assoc]
    omega
  have hexponents := (Nat.pow_lt_pow_iff_right (by decide)).1 hbound
  omega

theorem le_log2_of_scaled (hden : den ≠ 0) (hs : exponentWeight ≤ s)
    (h : (scaled num den e).1 = s * (scaled num den e).2) :
    e - 1 ≤ (num.log2 : Int) - den.log2 - 53 := by
  have hhigh : num < 2 ^ (num.log2 + 1) := Nat.lt_log2_self
  have hlow : 2 ^ den.log2 ≤ den := Nat.log2_self_le hden
  have hbound : 2 ^ (52 + den.log2 + e.toNat) < 2 ^ (num.log2 + 1 + (-e).toNat) := by
    have hleft : num * 2 ^ (-e).toNat < 2 ^ (num.log2 + 1) * 2 ^ (-e).toNat :=
      Nat.mul_lt_mul_of_pos_right hhigh (Nat.two_pow_pos _)
    have hden : 2 ^ den.log2 * 2 ^ e.toNat ≤ den * 2 ^ e.toNat := Nat.mul_le_mul_right _ hlow
    have hright : 2 ^ 52 * (2 ^ den.log2 * 2 ^ e.toNat) ≤ s * (den * 2 ^ e.toNat) :=
      Nat.mul_le_mul hs hden
    have heq : num * 2 ^ (-e).toNat = s * (den * 2 ^ e.toNat) := h
    rw [Nat.pow_add 2 (52 + den.log2), Nat.pow_add 2 52, Nat.mul_assoc,
      Nat.pow_add 2 (num.log2 + 1)]
    omega
  have hexponents := (Nat.pow_lt_pow_iff_right (by decide)).1 hbound
  omega

/-- **The exponent of a quotient that is a double.** -/
theorem targetExponent_eq (hnum : num ≠ 0) (hden : den ≠ 0) (hs : s < 2 * exponentWeight)
    (haligned : exponentWeight ≤ s ∨ e = -1074) (he : -1074 ≤ e)
    (h : (scaled num den e).1 = s * (scaled num den e).2) : targetExponent num den = e := by
  have hpos : 0 < (scaled num den e).2 :=
    Nat.mul_pos (Nat.pos_of_ne_zero hden) (Nat.two_pow_pos _)
  have hle := log2_le_of_scaled hnum hs h
  have hguess : max ((num.log2 : Int) - den.log2 - 53) (-1074) = e ∨
      max ((num.log2 : Int) - den.log2 - 53) (-1074) = e - 1 ∧ exponentWeight ≤ s := by
    rcases haligned with hnormal | hleast
    · have hge := le_log2_of_scaled hden hnormal h
      omega
    · omega
  unfold targetExponent
  rcases hguess with hguess | ⟨hguess, hnormal⟩
  · -- The guess is right, as the significand there is none of 54 bits.
    simp only [hguess]
    refine if_neg (Nat.not_le.2 ?_)
    rw [h, Nat.mul_comm _ (2 * exponentWeight)]
    exact Nat.mul_lt_mul_of_pos_right hs hpos
  · -- The guess is one too low, and the significand there has 54 bits.
    simp only [hguess]
    have htwice : (scaled num den (e - 1)).2 * (2 * exponentWeight) ≤
        (scaled num den (e - 1)).1 := by
      rcases scaled_pred num den e with ⟨hn, hd⟩ | ⟨hn, hd⟩
      · rw [hn, hd, h]
        have hmul := Nat.mul_le_mul_right (scaled num den e).2 hnormal
        calc (scaled num den e).2 * (2 * exponentWeight)
            = 2 * (exponentWeight * (scaled num den e).2) := by
              rw [Nat.mul_left_comm, Nat.mul_comm (scaled num den e).2]
          _ ≤ 2 * (s * (scaled num den e).2) := Nat.mul_le_mul_left 2 hmul
      · rw [hn, h, ← hd]
        calc (scaled num den (e - 1)).2 * (2 * exponentWeight)
            = exponentWeight * (2 * (scaled num den (e - 1)).2) := by
              rw [Nat.mul_left_comm, Nat.mul_left_comm exponentWeight, Nat.mul_comm exponentWeight]
          _ ≤ s * (2 * (scaled num den (e - 1)).2) := Nat.mul_le_mul_right _ hnormal
    rw [if_pos htwice]
    omega

/-- **A quotient that is a double is rounded to it.** -/
theorem ofRatio_eq {x : Binary64} (hfinite : x.isFinite = true) (hzero : x.magnitude ≠ 0)
    (hden : den ≠ 0)
    (h : (scaled num den x.exponent).1 = x.significand * (scaled num den x.exponent).2) :
    ofRatio num den = ofFields false x.magnitude := by
  have hpos : 0 < (scaled num den x.exponent).2 :=
    Nat.mul_pos (Nat.pos_of_ne_zero hden) (Nat.two_pow_pos _)
  have hnum : num ≠ 0 := by
    intro hnum
    have hleft : (scaled num den x.exponent).1 = 0 := by rw [scaled, hnum, Nat.zero_mul]
    have hright := Nat.mul_pos (significand_pos hzero) hpos
    omega
  have htarget := targetExponent_eq hnum hden x.significand_lt x.significand_aligned x.exponent_ge h
  have hround : roundHalfEven (scaled num den x.exponent).1 (scaled num den x.exponent).2 =
      x.significand := by
    rw [h, roundHalfEven_mul _ hpos]
  have hmin : min x.magnitude infiniteMagnitude = x.magnitude :=
    Nat.min_eq_left (Nat.le_of_lt (of_decide_eq_true hfinite))
  unfold ofRatio
  rw [if_neg hnum, htarget]
  simp only [hround, significand_add, hmin]

end Quotients

/-- A rounded quotient has no sign. -/
theorem ofRatio_unsigned (num den : Nat) :
    ofFields false (ofRatio num den).magnitude = ofRatio num den := by
  have hfields {m : Nat} (h : m < signWeight) :
      ofFields false (ofFields false m).magnitude = ofFields false m := by
    rw [magnitude_ofFields false h]
  unfold ofRatio
  split
  · exact hfields (by decide)
  · exact hfields (Nat.lt_of_le_of_lt (Nat.min_le_right _ _) (by decide))

end Binary64

/-! ### Decimals -/

namespace Decimal

/-- No exponent that occurs is out of range. -/
theorem clampExponent_eq (digits : Nat) {e : Int} (hlow : -1100 ≤ e) (hhigh : e ≤ 400) :
    clampExponent digits e = e := by
  unfold clampExponent
  omega

variable {x : Binary64}

theorem ReadsBack.toBinary64_eq {d : Decimal} (h : ReadsBack x d) :
    d.toBinary64 = .ofFields false x.magnitude := by
  have hunsigned : Binary64.ofFields false d.toBinary64.magnitude = d.toBinary64 :=
    Binary64.ofRatio_unsigned _ _
  rw [← hunsigned, show d.toBinary64.magnitude = x.magnitude from h]

/-- The decimal that a double is. -/
theorem exact_readsBack (hfinite : x.isFinite = true) (hzero : x.magnitude ≠ 0) :
    ReadsBack x (exact x) := by
  have hreads {num den : Nat} (hden : den ≠ 0) (h : (Binary64.scaled num den x.exponent).1 =
      x.significand * (Binary64.scaled num den x.exponent).2) :
      (Binary64.ofRatio num den).magnitude = x.magnitude := by
    rw [Binary64.ofRatio_eq hfinite hzero hden h]
    exact Binary64.magnitude_ofFields false x.magnitude_lt
  have hlow := x.exponent_ge
  have hhigh := Binary64.exponent_le hfinite
  unfold ReadsBack toBinary64 exact
  by_cases he : 0 ≤ x.exponent
  · simp only [if_pos he]
    rw [clampExponent_eq _ (by decide) (by decide)]
    have hdown : (-x.exponent).toNat = 0 := by omega
    refine hreads Nat.one_ne_zero ?_
    simp [ratio, Binary64.scaled, hdown]
  · simp only [if_neg he]
    rw [clampExponent_eq _ (by omega) (by omega)]
    have hup : x.exponent.toNat = 0 := by omega
    refine hreads (Nat.ne_of_gt (Nat.pow_pos (by decide))) ?_
    have hten : (10 : Nat) ^ (-x.exponent).toNat =
        5 ^ (-x.exponent).toNat * 2 ^ (-x.exponent).toNat := by
      rw [← Nat.mul_pow]
    simp only [ratio, Binary64.scaled, hup, Nat.pow_eq, Nat.pow_zero, Nat.mul_one, hten,
      Nat.mul_assoc]

theorem firstOnGrids_readsBack (hexact : ReadsBack x (exact x)) (count : Nat) (e : Int) :
    ReadsBack x (firstOnGrids x count e) := by
  induction count generalizing e with
  | zero => exact hexact
  | succ count ih =>
    rw [firstOnGrids]
    cases hgrid : onGrid? x e with
    | none => exact ih (e - 1)
    | some d => exact onGrid?_readsBack hgrid

/-- **The shortest decimal reads back**, like the exact one that it replaces. -/
theorem shortest_readsBack (hfinite : x.isFinite = true) (hzero : x.magnitude ≠ 0) :
    ReadsBack x (shortest x) :=
  firstOnGrids_readsBack (exact_readsBack hfinite hzero) 20 _

/-! ### Exponents of decimals -/

theorem exponent_of_onGrid? {e : Int} {d : Decimal} (h : onGrid? x e = some d) :
    d.exponent = e := by
  simp only [onGrid?] at h
  split at h
  · split at h <;> cases h <;> rfl
  · cases h
    rfl
  · cases h
    rfl
  · cases h

theorem firstOnGrids_exponent_le (count : Nat) (e : Int) :
    (firstOnGrids x count e).exponent ≤ max e 0 := by
  induction count generalizing e with
  | zero =>
    simp only [firstOnGrids, exact]
    split
    · exact Int.le_max_right e 0
    · show x.exponent ≤ max e 0
      omega
  | succ count ih =>
    rw [firstOnGrids]
    cases hgrid : onGrid? x e with
    | none =>
      have hrest := ih (e - 1)
      show (firstOnGrids x count (e - 1)).exponent ≤ max e 0
      omega
    | some d =>
      show d.exponent ≤ max e 0
      rw [exponent_of_onGrid? hgrid]
      exact Int.le_max_left e 0

/-- The shortest decimal has no exponent that is out of range. -/
theorem shortest_exponent_le (hfinite : x.isFinite = true) : (shortest x).exponent ≤ 400 := by
  have hbound : exponentBound x ≤ 400 := by
    have hexponent := Binary64.exponent_le hfinite
    have hlog : x.significand.log2 < 53 := by
      by_cases hs : x.significand = 0
      · rw [hs]
        decide
      · exact (Nat.log2_lt hs).2 x.significand_lt
    unfold exponentBound
    simp only
    split <;> omega
  have hgrids : (shortest x).exponent ≤ max (exponentBound x) 0 := firstOnGrids_exponent_le 20 _
  omega

end Decimal

end ExprMachine
