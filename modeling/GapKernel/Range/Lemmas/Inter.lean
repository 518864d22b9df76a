import GapKernel.Range.Impl

open Int

namespace egcd

structure Inv (A B a b lastx lasty x y s : Int) : Prop where
  pos : 0 < a
  nonneg : 0 ≤ b
  last_eq : lastx * A + lasty * B = a
  cur_eq : x * A + y * B = b
  gcd_eq : a.gcd b = A.gcd B
  sign : s = 1 ∨ s = -1
  lastx_sign : 0 ≤ s * lastx
  x_sign : 0 ≤ -s * x
  lasty_sign : 0 ≤ -s * lasty
  y_sign : 0 ≤ s * y
  x_bound : s * lastx * b + -s * x * a = B
  y_bound : -s * lasty * b + s * y * a = A
  lastx_le : s * lastx ≤ B
  lasty_le : -s * lasty ≤ A

variable {A B : Int}

theorem inv_init (hA : 0 < A) (hB : 0 < B) : Inv A B A B 1 0 0 1 1 := by
  constructor <;> omega

variable {a b lastx lasty x y s : Int}

section

variable (h : Inv A B a b lastx lasty x y s)

include h

theorem Inv.x_le
    : -s * x ≤ B := by
  have hx : -s * x * 1 ≤ -s * x * a := Int.mul_le_mul_of_nonneg_left h.pos h.x_sign
  have hlastx : 0 ≤ s * lastx * b := mul_nonneg h.lastx_sign h.nonneg
  have := h.x_bound
  omega

theorem Inv.y_le
    : s * y ≤ A := by
  have hy : s * y * 1 ≤ s * y * a := Int.mul_le_mul_of_nonneg_left h.pos h.y_sign
  have hlasty : 0 ≤ -s * lasty * b := mul_nonneg h.lasty_sign h.nonneg
  have := h.y_bound
  omega

theorem Inv.step (hb : b ≠ 0)
    : Inv A B b (a.tmod b) x y (lastx - a.tdiv b * x) (lasty - a.tdiv b * y) (-s) := by
  have hbpos : 0 < b := by
    have := h.nonneg
    omega
  have hpos := h.pos
  have hq : 0 ≤ a / b := ediv_nonneg (le_of_lt hpos) (le_of_lt hbpos)
  have hdiv : b * (a / b) + a % b = a := mul_ediv_add_emod a b
  rw [tdiv_eq_ediv_of_nonneg (le_of_lt hpos), tmod_eq_emod_of_nonneg (le_of_lt hpos)]
  generalize a / b = q at hq hdiv
  have hqx : 0 ≤ q * (-s * x) := mul_nonneg hq h.x_sign
  have hqy : 0 ≤ q * (s * y) := mul_nonneg hq h.y_sign
  have hlastx := h.lastx_sign
  have hlasty := h.lasty_sign
  have hxs := h.x_sign
  have hys := h.y_sign
  constructor
  . apply hbpos
  . apply emod_nonneg a hb
  . apply h.cur_eq
  . linear_combination h.last_eq - q * h.cur_eq - hdiv
  . rw [← h.gcd_eq, Int.gcd_comm b]
    apply gcd_emod
  . have := h.sign
    omega
  . linarith
  . linarith
  . linarith
  . linarith
  . linear_combination h.x_bound - s * x * hdiv
  . linear_combination h.y_bound + s * y * hdiv
  . apply h.x_le
  . have := h.y_le
    linarith

end

variable {w : IntSize} (hA : A ≤ 2 ^ w.nrSmallIntBits) (hB : B ≤ 2 ^ w.nrSmallIntBits)
  (h : Inv A B a b lastx lasty x y s)

include hA hB h

theorem Inv.isInt (hb : b ≠ 0)
    : w.IsInt (a.tdiv b * x) ∧ w.IsInt (a.tdiv b * y) ∧ w.IsInt (lastx - a.tdiv b * x)
        ∧ w.IsInt (lasty - a.tdiv b * y) := by
  have hstep := h.step hb
  have hx := hstep.x_le
  have hy := hstep.y_le
  have hxs := hstep.x_sign
  have hys := hstep.y_sign
  have := h.lastx_sign
  have := h.lasty_sign
  have := h.lastx_le
  have := h.lasty_le
  have : (0 : Int) < 2 ^ w.nrSmallIntBits := by positivity
  simp only [IntSize.isInt_iff]
  generalize a.tdiv b * x = qx at *
  generalize a.tdiv b * y = qy at *
  rcases h.sign with hs | hs
  . subst hs
    omega
  . subst hs
    omega

theorem go_spec
    : ∃ g lastx' lasty' x' y' s', go w a b lastx lasty x y = (g, lastx', lasty')
        ∧ Inv A B g 0 lastx' lasty' x' y' s' := by
  fun_induction go w a b lastx lasty x y generalizing s with
  | case1 a b lastx lasty x y hb q =>
    rename_i ih
    obtain ⟨hqx, hqy, hx, hy⟩ : w.IsInt (q * x) ∧ w.IsInt (q * y) ∧ w.IsInt (lastx - q * x)
        ∧ w.IsInt (lasty - q * y) := h.isInt hA hB hb
    simp only [w.wrap_of_isInt hqx, w.wrap_of_isInt hqy, w.wrap_of_isInt hx,
      w.wrap_of_isInt hy] at ih ⊢
    apply ih (h.step hb)
  | case2 a b lastx lasty x y hb =>
    simp only [ne_eq, Decidable.not_not] at hb
    subst hb
    exact ⟨a, lastx, lasty, x, y, s, rfl, h⟩

end egcd

-- The result is the greatest common divisor with a cofactor that is no larger than the input.
theorem egcd_spec {w : IntSize} {a b : Int} (ha : a ≤ 2 ^ w.nrSmallIntBits)
    (hb : b ≤ 2 ^ w.nrSmallIntBits) (ha0 : 0 < a) (hb0 : 0 < b)
    : ∃ g x y, egcd w a b = (g, x, y) ∧ Progression.IsCofactor a b g y ∧ y.natAbs ≤ a.natAbs := by
  obtain ⟨g, x, y, _, _, s, hgo, hinv⟩ := egcd.go_spec ha hb (egcd.inv_init ha0 hb0)
  have hgcd : g = a.gcd b := by
    have hpos := hinv.pos
    rw [← hinv.gcd_eq, gcd_zero]
    omega
  refine ⟨g, x, y, hgo, ?_, ?_⟩
  . constructor
    . apply hinv.pos
    . rw [hgcd]
      apply Int.gcd_dvd_left
    . rw [hgcd]
      apply Int.gcd_dvd_right
    . exact ⟨x, hinv.last_eq⟩
  . have hle := hinv.lasty_le
    have hsign := hinv.lasty_sign
    rcases hinv.sign with hs | hs
    . subst hs
      omega
    . subst hs
      omega

section Inter

open Progression

namespace interRange

theorem wrap_mul_tdiv_iff (w : IntSize) {a b : Int} (ha : 0 < a) (hb : 0 < b)
    : (w.wrap (a * b)).tdiv b = a ↔ w.IsInt (a * b) := by
  have hpos : 0 < a * b := Int.mul_pos ha hb
  constructor
  . intro h
    have hwrap := w.isInt_wrap (a * b)
    have hnonneg : 0 ≤ w.wrap (a * b) := by
      by_contra hneg
      have hneg' : 0 ≤ (-w.wrap (a * b)).tdiv b := Int.tdiv_nonneg (by omega) (by omega)
      rw [Int.neg_tdiv] at hneg'
      omega
    rw [tdiv_eq_ediv_of_nonneg hnonneg] at h
    have hle := Int.ediv_mul_le (w.wrap (a * b)) (ne_of_gt hb)
    rw [h] at hle
    rw [IntSize.isInt_iff] at *
    omega
  . intro h
    rw [w.wrap_of_isInt h]
    apply mul_tdiv_cancel
    omega

variable {x : Int}

theorem tmod_add_eq_emod {m : Int} (hm : 0 < m)
    : (if x.tmod m < 0 then x.tmod m + m else x.tmod m) = x % m := by
  have hnonneg := emod_nonneg x (ne_of_gt hm)
  have hlt := emod_lt_of_pos x hm
  rw [tmod_eq_emod]
  split
  . rw [if_neg]
    . omega
    . omega
  . rw [if_pos]
    . omega
    . omega

structure Ordered (w : IntSize) (p q : Progression) (len1 len2 : Int) : Prop where
  low_le : p.low ≤ q.low
  low1_small : w.IsSmall p.low
  low2_small : w.IsSmall q.low
  inc1_le : p.inc ≤ 2 ^ w.nrSmallIntBits
  inc2_le : q.inc ≤ 2 ^ w.nrSmallIntBits
  last1_small : w.IsSmall p.last
  last2_small : w.IsSmall q.last
  len1_small : w.IsSmall len1
  len2_small : w.IsSmall len2
  two_le_len1 : 2 ≤ len1
  two_le_len2 : 2 ≤ len2
  last1_eq : p.last = p.low + (len1 - 1) * p.inc
  last2_eq : q.last = q.low + (len2 - 1) * q.inc

-- What the machine computes for the offset of the first common element on the second range.
def offset (w : IntSize) (p q : Progression) : Int :=
  let (g, _, y) := egcd w p.inc q.inc
  w.wrap (-y * ((q.low - p.low) / g)) % (p.inc / g)

def first (w : IntSize) (p q : Progression) : Int :=
  q.low + q.inc * offset w p q

def step (w : IntSize) (p q : Progression) : Int :=
  p.inc / (egcd w p.inc q.inc).1 * q.inc

def Finds (w : IntSize) (p q : Progression) : Prop :=
  w.IsInt (step w p q) ∧ (egcd w p.inc q.inc).1 ∣ q.low - p.low ∧ first w p q ≤ p.last
    ∧ first w p q ≤ q.last

variable {w : IntSize} {p q : Progression} {len1 len2 : Int}

theorem offset_bounds (h : Ordered w p q len1 len2)
    : 0 ≤ offset w p q ∧ offset w p q < p.inc / (egcd w p.inc q.inc).1 := by
  obtain ⟨g, x, y, hegcd, hcof, _⟩ := egcd_spec h.inc1_le h.inc2_le p.inc_pos q.inc_pos
  have hpos := hcof.left_pos p.inc_pos
  unfold offset
  rw [hegcd]
  constructor
  . apply emod_nonneg
    apply ne_of_gt hpos
  . apply emod_lt_of_pos
    apply hpos

instance : Decidable (Finds w p q) :=
  inferInstanceAs (Decidable (_ ∧ _ ∧ _ ∧ _))

section

variable (h : Ordered w p q len1 len2)

include h

theorem offset_eq {g y : Int} (hegcd : egcd w p.inc q.inc = (g, x, y))
    : (let x := (w.wrap (w.wrap (-y) * (w.wrap (q.low - p.low)).tdiv g)).tmod (p.inc.tdiv g)
      if x < 0 then w.wrap (x + p.inc.tdiv g) else x)
        =
      offset w p q := by
  obtain ⟨g', x', y', hegcd', hcof, hy⟩ := egcd_spec h.inc1_le h.inc2_le p.inc_pos q.inc_pos
  obtain ⟨rfl, rfl, rfl⟩ : g = g' ∧ x = x' ∧ y = y' := by
    rw [hegcd] at hegcd'
    simpa using hegcd'
  have hpos := hcof.left_pos p.inc_pos
  have hle := h.low_le
  have h1 := h.low1_small
  have h2 := h.low2_small
  have h3 := h.inc1_le
  have hdiv : p.inc / g ≤ p.inc := ediv_le_self g (le_of_lt p.inc_pos)
  rw [IntSize.isSmall_iff] at h1 h2
  have hneg : w.wrap (-y) = -y := by
    apply w.wrap_of_isInt
    rw [IntSize.isInt_iff]
    omega
  have hsub : w.wrap (q.low - p.low) = q.low - p.low := by
    apply w.wrap_of_isInt
    rw [IntSize.isInt_iff]
    omega
  unfold offset
  rw [hegcd]
  dsimp only
  rw [hneg, hsub, tdiv_eq_ediv_of_nonneg (by omega),
    tdiv_eq_ediv_of_nonneg (le_of_lt p.inc_pos), ← tmod_add_eq_emod hpos]
  generalize w.wrap (-y * ((q.low - p.low) / g)) = v
  split
  . next hlt =>
    apply w.wrap_of_isInt
    have := emod_nonneg v (ne_of_gt hpos)
    have hrem := tmod_add_eq_emod (x := v) hpos
    rw [if_pos hlt] at hrem
    rw [IntSize.isInt_iff]
    omega
  . rfl

theorem inc_mul_offset_bounds
    : 0 ≤ q.inc * offset w p q ∧ q.inc * offset w p q ≤ step w p q - q.inc := by
  obtain ⟨h0, hlt⟩ := offset_bounds h
  have hpos := q.inc_pos
  constructor
  . positivity
  . unfold step
    nlinarith

theorem step_pos : q.inc ≤ step w p q := by
  have := inc_mul_offset_bounds h
  omega

theorem wrap_last2_sub (hfits : w.IsInt (step w p q))
    : w.wrap (q.low + (len2 - 1) * q.inc - w.wrap (q.low + w.wrap (q.inc * offset w p q)))
        =
      q.last - first w p q := by
  obtain ⟨h0, hle⟩ := inc_mul_offset_bounds h
  have hpos := q.inc_pos
  have hlen := h.two_le_len2
  have hlast := h.last2_eq
  have hinc : q.inc ≤ (len2 - 1) * q.inc := by nlinarith
  have h2 := h.low2_small
  have h4 := h.last2_small
  rw [IntSize.isSmall_iff] at h2 h4
  rw [IntSize.isInt_iff] at hfits
  have hmul : w.wrap (q.inc * offset w p q) = q.inc * offset w p q := by
    apply w.wrap_of_isInt
    rw [IntSize.isInt_iff]
    omega
  rw [hmul, IntSize.wrap_sub_wrap, ← hlast]
  unfold first
  apply w.wrap_of_isInt
  rw [IntSize.isInt_iff]
  omega

theorem first_isSmall (hle : first w p q ≤ q.last)
    : w.IsSmall (first w p q) := by
  have := (inc_mul_offset_bounds h).1
  have h2 := h.low2_small
  have h4 := h.last2_small
  rw [IntSize.isSmall_iff] at *
  unfold first at *
  omega

theorem wrap_last1_sub (hle : first w p q ≤ q.last)
    : w.wrap (q.low + w.wrap (q.inc * offset w p q)) = first w p q
        ∧ w.wrap (p.low + (len1 - 1) * p.inc - first w p q) = p.last - first w p q := by
  have hfirst := first_isSmall h hle
  have h2 := h.low2_small
  have h3 := h.last1_small
  rw [← h.last1_eq]
  rw [IntSize.isSmall_iff] at *
  unfold first at *
  have hmul : w.wrap (q.inc * offset w p q) = q.inc * offset w p q := by
    apply w.wrap_of_isInt
    rw [IntSize.isInt_iff]
    omega
  rw [hmul]
  constructor
  . apply w.wrap_of_isInt
    rw [IntSize.isInt_iff]
    omega
  . apply w.wrap_of_isInt
    rw [IntSize.isInt_iff]
    omega

theorem count_bounds (hp : first w p q ≤ p.last) (hq : first w p q ≤ q.last)
    : 0 ≤ min (p.last - first w p q) (q.last - first w p q) / step w p q
        ∧ min (p.last - first w p q) (q.last - first w p q) / step w p q ≤ len2 - 1 := by
  have hstep := step_pos h
  have hpos := q.inc_pos
  have h0 := (inc_mul_offset_bounds h).1
  have hlast := h.last2_eq
  have hlen := h.two_le_len2
  constructor
  . apply ediv_nonneg
    . omega
    . omega
  . have hle : min (p.last - first w p q) (q.last - first w p q) ≤ (len2 - 1) * q.inc := by
      unfold first at *
      omega
    have hmul : (len2 - 1) * q.inc ≤ (len2 - 1) * step w p q := by
      apply Int.mul_le_mul_of_nonneg_left
      . apply hstep
      . omega
    apply Int.ediv_le_of_le_mul
    . omega
    . omega

theorem count_eq (hp : first w p q ≤ p.last) (hq : first w p q ≤ q.last)
    : w.intobj (if p.last - first w p q > q.last - first w p q then
          w.wrap (1 + (q.last - first w p q).tdiv (step w p q))
        else
          w.wrap (1 + (p.last - first w p q).tdiv (step w p q)))
        =
      1 + min (p.last - first w p q) (q.last - first w p q) / step w p q := by
  obtain ⟨h0, hle⟩ := count_bounds h hp hq
  have hlen := h.len2_small
  have hsmall : w.IsSmall
      (1 + min (p.last - first w p q) (q.last - first w p q) / step w p q) := by
    have : (0 : Int) < 2 ^ w.nrSmallIntBits := by positivity
    rw [IntSize.isSmall_iff] at *
    omega
  split
  . next hgt =>
    rw [min_eq_right (by omega)] at hsmall ⊢
    rw [tdiv_eq_ediv_of_nonneg (by omega), w.wrap_of_isInt (IntSize.isInt_of_isSmall hsmall)]
    apply IntSize.intobj_of_isSmall hsmall
  . next hgt =>
    rw [min_eq_left (by omega)] at hsmall ⊢
    rw [tdiv_eq_ediv_of_nonneg (by omega), w.wrap_of_isInt (IntSize.isInt_of_isSmall hsmall)]
    apply IntSize.intobj_of_isSmall hsmall

theorem inter_eq (r1 : RangeBag)
    : inter w r1 p.low p.inc len1 q.low q.inc len2
        =
      if Finds w p q then
        .range { r1 with
          low := first w p q
          len := 1 + min (p.last - first w p q) (q.last - first w p q) / step w p q
          inc := w.intobj (step w p q)
        }
      else
        .plistEmpty := by
  obtain ⟨g, x, y, hegcd, hcof, hy⟩ := egcd_spec h.inc1_le h.inc2_le p.inc_pos q.inc_pos
  have hpos := hcof.left_pos p.inc_pos
  have hoffset := offset_eq h hegcd
  dsimp only at hoffset
  have hstep : step w p q = p.inc / g * q.inc := by
    unfold step
    rw [hegcd]
  have hfinds : Finds w p q ↔ w.IsInt (step w p q) ∧ g ∣ q.low - p.low ∧ first w p q ≤ p.last
      ∧ first w p q ≤ q.last := by
    unfold Finds
    rw [hegcd]
  unfold inter
  rw [hegcd]
  dsimp only
  rw [hoffset, tdiv_eq_ediv_of_nonneg (le_of_lt p.inc_pos), ← hstep]
  split
  . next hover =>
    rw [if_neg]
    intro hf
    apply hover
    rw [hstep, wrap_mul_tdiv_iff w hpos q.inc_pos, ← hstep]
    apply (hfinds.mp hf).1
  . next hover =>
    have hfits : w.IsInt (step w p q) := by
      rw [ne_eq, Decidable.not_not, hstep, wrap_mul_tdiv_iff w hpos q.inc_pos, ← hstep] at hover
      apply hover
    have hsub : w.wrap (q.low - p.low) = q.low - p.low := by
      apply w.wrap_of_isInt
      have h1 := h.low1_small
      have h2 := h.low2_small
      rw [IntSize.isSmall_iff] at h1 h2
      rw [IntSize.isInt_iff]
      omega
    rw [hsub, w.wrap_of_isInt hfits]
    split
    . next hdisj =>
      rw [if_neg]
      intro hf
      apply hdisj
      apply tmod_eq_zero_of_dvd
      apply (hfinds.mp hf).2.1
    . next hdvd =>
      rw [ne_eq, Decidable.not_not, ← dvd_iff_tmod_eq_zero] at hdvd
      rw [wrap_last2_sub h hfits]
      by_cases hq : first w p q ≤ q.last
      . obtain ⟨hfirst, hlast1⟩ := wrap_last1_sub h hq
        rw [hfirst, hlast1]
        by_cases hp : first w p q ≤ p.last
        . rw [if_neg (by omega), if_pos (hfinds.mpr ⟨hfits, hdvd, hp, hq⟩)]
          rw [IntSize.intobj_of_isSmall (first_isSmall h hq)]
          have hcount := count_eq h hp hq
          rw [hcount]
        . rw [if_pos (by omega), if_neg (fun hf => hp (hfinds.mp hf).2.2.1)]
      . rw [if_pos (by omega), if_neg (fun hf => hq (hfinds.mp hf).2.2.2)]

end

def ordered (r1 r2 : Range w) : Progression × Progression :=
  if r1.progression.low > r2.progression.low then
    (r2.progression, r1.progression)
  else
    (r1.progression, r2.progression)

theorem upwards_eq (r : Range w)
    : upwards w r.toRangeBag = (r.progression.low, r.progression.inc) := by
  unfold upwards Range.progression
  split
  . have hinc := IntSize.isSmall_iff.mp r.inc_small
    have hlast : w.wrap (r.low + (r.len - 1) * r.inc) = r.last := by
      apply w.wrap_of_isInt
      apply IntSize.isInt_of_isSmall
      apply r.last_small
    rw [hlast, w.wrap_of_isInt]
    rw [IntSize.isInt_iff]
    omega
  . rfl

theorem progression_small (r : Range w)
    : w.IsSmall r.progression.low ∧ w.IsSmall r.progression.last := by
  unfold Range.progression
  split
  . exact ⟨r.last_small, r.low_small⟩
  . exact ⟨r.low_small, r.last_small⟩

theorem progression_inc_le (r : Range w) : r.progression.inc ≤ 2 ^ w.nrSmallIntBits := by
  have := IntSize.isSmall_iff.mp r.inc_small
  unfold Range.progression
  split
  . dsimp only
    omega
  . dsimp only
    omega

theorem progression_last (r : Range w)
    : r.progression.last = r.progression.low + (r.len - 1) * r.progression.inc := by
  unfold Range.progression
  split
  . dsimp only [RangeBag.last]
    ring
  . rfl

theorem ordered_of_le (r1 r2 : Range w) (h : r1.progression.low ≤ r2.progression.low)
    : Ordered w r1.progression r2.progression r1.len r2.len where
  low_le := h
  low1_small := (progression_small r1).1
  low2_small := (progression_small r2).1
  inc1_le := progression_inc_le r1
  inc2_le := progression_inc_le r2
  last1_small := (progression_small r1).2
  last2_small := (progression_small r2).2
  len1_small := r1.len_small
  len2_small := r2.len_small
  two_le_len1 := r1.isRange.two_le_len
  two_le_len2 := r2.isRange.two_le_len
  last1_eq := progression_last r1
  last2_eq := progression_last r2

def result (w : IntSize) (r1 : RangeBag) (p q : Progression) : ListBag :=
  if Finds w p q then
    .range { r1 with
      low := first w p q
      len := 1 + min (p.last - first w p q) (q.last - first w p q) / step w p q
      inc := w.intobj (step w p q)
    }
  else
    .plistEmpty

theorem interRange_eq (r1 r2 : Range w)
    : interRange w r1.toRangeBag r2.toRangeBag
        =
      result w r1.toRangeBag (ordered r1 r2).1 (ordered r1 r2).2 := by
  unfold interRange
  rw [upwards_eq, upwards_eq]
  dsimp only
  unfold ordered result
  split
  . next h =>
    apply inter_eq
    apply ordered_of_le
    omega
  . next h =>
    apply inter_eq
    apply ordered_of_le
    omega

def IsExact (w : IntSize) (p q : Progression) : Prop :=
  let (g, _, y) := egcd w p.inc q.inc
  w.wrap (-y * ((q.low - p.low) / g)) % (p.inc / g) = -y * ((q.low - p.low) / g) % (p.inc / g)

def HaveTwo (r1 r2 : Range w) : Prop :=
  ∃ x y, x < y ∧ (x ∈ r1.elms ∧ x ∈ r2.elms) ∧ (y ∈ r1.elms ∧ y ∈ r2.elms)

def AreDisjoint (r1 r2 : Range w) : Prop :=
  ∀ z, ¬(z ∈ r1.elms ∧ z ∈ r2.elms)

/--
The result is a list of the common elements of the ranges, in increasing order, in a valid
representation.
-/
structure IsIntersection (r1 r2 : Range w) (res : ListBag) : Prop where
  sorted : res.elms.Pairwise (· < ·)
  mem_iff : ∀ z, z ∈ res.elms ↔ z ∈ r1.elms ∧ z ∈ r2.elms
  isValid : res.IsValid

theorem mem_ordered (r1 r2 : Range w) (z : Int)
    : (z ∈ (ordered r1 r2).1 ∧ z ∈ (ordered r1 r2).2) ↔ (z ∈ r1.elms ∧ z ∈ r2.elms) := by
  unfold ordered
  split
  . dsimp only
    rw [Range.mem_progression, Range.mem_progression, and_comm]
  . rw [Range.mem_progression, Range.mem_progression]

theorem exists_ordered (r1 r2 : Range w)
    : ∃ len1 len2, Ordered w (ordered r1 r2).1 (ordered r1 r2).2 len1 len2 := by
  unfold ordered
  split
  . exact ⟨r2.len, r1.len, ordered_of_le r2 r1 (by omega)⟩
  . exact ⟨r1.len, r2.len, ordered_of_le r1 r2 (by omega)⟩

section

variable (h : Ordered w p q len1 len2)

include h

theorem common_iff_of_isExact (hexact : IsExact w p q)
    (hdvd : (egcd w p.inc q.inc).1 ∣ q.low - p.low) (z : Int)
    : (z ∈ p ∧ z ∈ q)
        ↔
      ∃ j : Nat, z = first w p q + j * step w p q ∧ z ≤ p.last ∧ z ≤ q.last := by
  obtain ⟨g, x, y, hegcd, hcof, _⟩ := egcd_spec h.inc1_le h.inc2_le p.inc_pos q.inc_pos
  unfold IsExact at hexact
  unfold first offset step
  rw [hegcd] at hexact hdvd ⊢
  dsimp only at hexact hdvd ⊢
  rw [hexact]
  apply mem_and_mem_iff hcof hdvd h.low_le

theorem dvd_of_common {z : Int} (hz : z ∈ p ∧ z ∈ q)
    : (egcd w p.inc q.inc).1 ∣ q.low - p.low := by
  obtain ⟨g, x, y, hegcd, hcof, _⟩ := egcd_spec h.inc1_le h.inc2_le p.inc_pos q.inc_pos
  rw [hegcd]
  by_contra hdvd
  exact not_mem_of_not_dvd hcof hdvd z hz

theorem isExact_of_common (hp : first w p q ∈ p) (hq : first w p q ∈ q)
    : IsExact w p q := by
  obtain ⟨h0, hlt⟩ := offset_bounds h
  have hdvd := dvd_of_common h ⟨hp, hq⟩
  obtain ⟨g, x, y, hegcd, hcof, _⟩ := egcd_spec h.inc1_le h.inc2_le p.inc_pos q.inc_pos
  have hmem := hp.2.2
  have heq : first w p q - p.low = q.low - p.low + q.inc * offset w p q := by
    unfold first
    ring
  rw [heq] at hmem
  unfold offset at hmem h0 hlt
  unfold IsExact
  rw [hegcd] at hmem h0 hlt hdvd ⊢
  dsimp only at hmem h0 hlt hdvd ⊢
  rwa [hcof.dvd_add_iff_emod hdvd h0 hlt] at hmem

-- With two common elements the least common multiple is at most the length of the ranges.
theorem step_le_of_common (hexact : IsExact w p q) {y : Int} (hxy : x < y) (hx : x ∈ p ∧ x ∈ q)
    (hy : y ∈ p ∧ y ∈ q)
    : first w p q + step w p q ≤ p.last ∧ first w p q + step w p q ≤ q.last := by
  have hdvd := dvd_of_common h hx
  have hstep := step_pos h
  have hpos := q.inc_pos
  obtain ⟨i, hi, _, _⟩ := (common_iff_of_isExact h hexact hdvd x).mp hx
  obtain ⟨j, hj, hjp, hjq⟩ := (common_iff_of_isExact h hexact hdvd y).mp hy
  have hj1 : (1 : Int) ≤ j := by
    by_contra hlt
    have : j = 0 := by omega
    subst this
    have : 0 ≤ (i : Int) * step w p q := mul_nonneg (by omega) (by omega)
    omega
  have hmul : 1 * step w p q ≤ j * step w p q := by
    apply Int.mul_le_mul_of_nonneg_right
    . apply hj1
    . omega
  omega

end

theorem mem_elms_iff {r : RangeBag} (h : Ordered w p q len1 len2) (hexact : IsExact w p q)
    (hdvd : (egcd w p.inc q.inc).1 ∣ q.low - p.low) (z : Int) (hlow : r.low = first w p q)
    (hinc : r.inc = step w p q)
    (hlen : r.len = 1 + min (p.last - first w p q) (q.last - first w p q) / step w p q)
    : z ∈ r.elms ↔ z ∈ p ∧ z ∈ q := by
  have hpos := q.inc_pos
  have hstep := step_pos h
  rw [RangeBag.mem_elms, common_iff_of_isExact h hexact hdvd, hlow, hinc, hlen]
  have hcount : ∀ j : Nat, j < (1 + min (p.last - first w p q) (q.last - first w p q)
      / step w p q).toNat ↔ j * step w p q ≤ min (p.last - first w p q) (q.last - first w p q) := by
    intro j
    rw [← Int.le_ediv_iff_mul_le (by omega)]
    omega
  constructor
  . intro ⟨j, hj, hz⟩
    rw [hcount] at hj
    exact ⟨j, hz.symm, by omega, by omega⟩
  . intro ⟨j, hz, hp, hq⟩
    refine ⟨j, ?_, hz.symm⟩
    rw [hcount]
    omega

theorem step_isInt (h : Ordered w p q len1 len2) (hle : first w p q + step w p q ≤ q.last)
    : w.IsInt (step w p q) ∧ w.intobj (step w p q) = step w p q := by
  have hpos := q.inc_pos
  have hstep := step_pos h
  have h0 := (inc_mul_offset_bounds h).1
  have h2 := h.low2_small
  have h4 := h.last2_small
  rw [IntSize.isSmall_iff] at h2 h4
  unfold first at hle
  constructor
  . rw [IntSize.isInt_iff]
    omega
  . apply IntSize.intobj_of_bounds
    . omega
    . omega

section

variable (r1 r2 : Range w) (hord : Ordered w (ordered r1 r2).1 (ordered r1 r2).2 len1 len2)

include r1 r2 hord

theorem isIntersection_result (hinc : 0 < r1.inc) (htwo : HaveTwo r1 r2)
    (hexact : IsExact w (ordered r1 r2).1 (ordered r1 r2).2)
    : IsIntersection r1 r2 (result w r1.toRangeBag (ordered r1 r2).1 (ordered r1 r2).2) := by
  have hcommon := mem_ordered r1 r2
  obtain ⟨x, y, hxy, hx, hy⟩ := htwo
  rw [← hcommon] at hx hy
  have hssort := r1.isRange.ssort_iff
  generalize (ordered r1 r2).1 = p at *
  generalize (ordered r1 r2).2 = q at *
  have hdvd := dvd_of_common hord hx
  have hpos := q.inc_pos
  have hstep := step_pos hord
  obtain ⟨hlep, hleq⟩ := step_le_of_common hord hexact hxy hx hy
  obtain ⟨hint, hintobj⟩ := step_isInt hord hleq
  have hfinds : Finds w p q := ⟨hint, hdvd, by omega, by omega⟩
  have hmin : 1 ≤ min (p.last - first w p q) (q.last - first w p q) / step w p q := by
    rw [Int.le_ediv_iff_mul_le (by omega)]
    omega
  unfold result
  rw [if_pos hfinds, hintobj]
  constructor
  . apply RangeBag.pairwise_elms
    dsimp only
    omega
  . intro z
    rw [← hcommon]
    apply mem_elms_iff hord hexact hdvd z rfl rfl rfl
  . constructor
    . dsimp only
      omega
    . dsimp only
      rw [hssort]
      omega

theorem isExact_of_isIntersection (hfinds : Finds w (ordered r1 r2).1 (ordered r1 r2).2)
    (h : IsIntersection r1 r2 (result w r1.toRangeBag (ordered r1 r2).1 (ordered r1 r2).2))
    : 0 < r1.inc ∧ HaveTwo r1 r2 ∧ IsExact w (ordered r1 r2).1 (ordered r1 r2).2 := by
  have hcommon := mem_ordered r1 r2
  have hssort := r1.isRange.ssort_iff
  unfold result at h
  rw [if_pos hfinds] at h
  have hlen := h.isValid.two_le_len
  have htnum := h.isValid.ssort_iff
  have hsorted := h.sorted
  have hmem := fun z hz => (hcommon z).mpr ((h.mem_iff z).mp hz)
  simp only [ListBag.elms] at hsorted hmem
  generalize (ordered r1 r2).1 = p at *
  generalize (ordered r1 r2).2 = q at *
  dsimp only at hlen htnum hmem
  -- The first two elements of the result.
  have h0 := hmem (first w p q) (RangeBag.mem_elms.mpr ⟨0, by dsimp only; omega, by simp⟩)
  have h1 := hmem (first w p q + w.intobj (step w p q))
    (RangeBag.mem_elms.mpr ⟨1, by dsimp only; omega, by simp⟩)
  have hpos : 0 < w.intobj (step w p q) := by
    have := List.pairwise_iff_getElem.mp hsorted 0 1 (by simp [RangeBag.elms]; omega)
      (by simp [RangeBag.elms]; omega) (by omega)
    simpa [RangeBag.elms] using this
  refine ⟨?_, ?_, ?_⟩
  . rw [← hssort, htnum]
    apply hpos
  . refine ⟨_, _, ?_, (hcommon _).mp h0, (hcommon _).mp h1⟩
    omega
  . apply isExact_of_common hord h0.1 h0.2

end

def oneThreeFive : Range .int8 where
  tnum := .ssort
  len := 3
  low := 1
  inc := 2
  isRange := ⟨by decide, by decide⟩
  inc_ne := by decide
  len_small := by decide
  low_small := by decide
  inc_small := by decide
  last_small := by decide

def threeFour : Range .int8 where
  tnum := .ssort
  len := 2
  low := 3
  inc := 1
  isRange := ⟨by decide, by decide⟩
  inc_ne := by decide
  len_small := by decide
  low_small := by decide
  inc_small := by decide
  last_small := by decide

end interRange

end Inter
