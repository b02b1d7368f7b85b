import Mathlib.Logic.Function.Basic

/-!
# Bitmaps

Bitmaps as functions: setting a range, shifting, counting the bits that are set. `bitmapSpread` makes every bit
a group of `w` bits.
-/

namespace Sdssd.Framework

def bitmapSet (bm : Nat → Bool) (start len : Nat) : Nat → Bool :=
  fun i => bm i || (decide (start ≤ i) && decide (i < start + len))

def bitmapOr (a b : Nat → Bool) : Nat → Bool := fun i => a i || b i

def bitmapShiftLeft (bm : Nat → Bool) (off nbits : Nat) : Nat → Bool :=
  fun i => decide (off ≤ i) && decide (i < nbits) && bm (i - off)

def bitmapWeight (bm : Nat → Bool) (n : Nat) : Nat := (List.range n).countP bm

variable {a b bm pm qm : Nat → Bool} {n k w start len : Nat}

@[simp] theorem bitmapWeight_zero : bitmapWeight bm 0 = 0 := rfl

theorem bitmapWeight_succ : bitmapWeight bm (n + 1) = bitmapWeight bm n + (bm n).toNat := by
  rw [bitmapWeight,List.range_succ,List.countP_append,List.countP_singleton]
  cases bm n <;> rfl

theorem bitmapWeight_congr (h : ∀ i, i < n → a i = b i) : bitmapWeight a n = bitmapWeight b n := by
  induction n with
  | zero => rfl
  | succ n ih => rw [bitmapWeight_succ,bitmapWeight_succ,ih fun i hi => h i (by omega),h n (by omega)]

theorem bitmapWeight_le (bm : Nat → Bool) (n : Nat) : bitmapWeight bm n ≤ n := by
  induction n with
  | zero => simp
  | succ n ih =>
    rw [bitmapWeight_succ]
    have := (bm n).toNat_le
    omega

theorem bitmapWeight_add (bm : Nat → Bool) (n k : Nat) :
    bitmapWeight bm (n + k) = bitmapWeight bm n + bitmapWeight (fun i => bm (n + i)) k := by
  induction k with
  | zero => simp
  | succ k ih => rw [← Nat.add_assoc,bitmapWeight_succ,ih,bitmapWeight_succ,Nat.add_assoc]

/-- The bits that are clear. -/
theorem bitmapWeight_not (bm : Nat → Bool) (n : Nat) : bitmapWeight bm n + bitmapWeight (fun i => !bm i) n = n := by
  induction n with
  | zero => simp
  | succ n ih =>
    rw [bitmapWeight_succ,bitmapWeight_succ]
    cases bm n <;> simp <;> omega

theorem bitmapWeight_set_of_le (bm : Nat → Bool) (len : Nat) (hn : n ≤ start) :
    bitmapWeight (bitmapSet bm start len) n = bitmapWeight bm n := by
  apply bitmapWeight_congr
  intro i hi
  have : ¬start ≤ i := by omega
  simp [bitmapSet,this]

/-- Setting a range: what was set in it before is not counted twice. -/
theorem bitmapWeight_set (bm : Nat → Bool) (hn : start + len ≤ n) :
    bitmapWeight (bitmapSet bm start len) n + bitmapWeight bm (start + len) =
      bitmapWeight bm start + len + bitmapWeight bm n := by
  obtain ⟨k,rfl⟩ := Nat.exists_eq_add_of_le hn
  have hrange : bitmapWeight (fun i => bitmapSet bm start len (start + i)) len = len := by
    have hall : bitmapWeight (fun i => bitmapSet bm start len (start + i)) len = bitmapWeight (fun _ => true) len := by
      apply bitmapWeight_congr
      intro i hi
      simp [bitmapSet,hi]
    rw [hall]
    simp [bitmapWeight]
  have habove : bitmapWeight (fun i => bitmapSet bm start len (start + len + i)) k =
      bitmapWeight (fun i => bm (start + len + i)) k := by
    apply bitmapWeight_congr
    intro i _
    have : ¬start + len + i < start + len := by omega
    simp [bitmapSet,this]
  rw [bitmapWeight_add _ (start + len) k,bitmapWeight_add bm (start + len) k,habove,bitmapWeight_add _ start len,
    bitmapWeight_set_of_le bm len (Nat.le_refl start),hrange]
  omega

/-- Where nothing is set the count does not grow. -/
theorem bitmapWeight_of_full (hfull : ∀ i, i < n → bm i = true) : bitmapWeight bm n = n := by
  induction n with
  | zero => simp
  | succ n ih => rw [bitmapWeight_succ,ih fun i hi => hfull i (by omega),hfull n (by omega),Bool.toNat_true]

theorem bitmapWeight_of_clear (bm : Nat → Bool) (hclear : ∀ i, n ≤ i → i < n + k → bm i = false) :
    bitmapWeight bm (n + k) = bitmapWeight bm n := by
  induction k with
  | zero => rfl
  | succ k ih =>
    rw [← Nat.add_assoc,bitmapWeight_succ,ih fun i hi hi' => hclear i hi (by omega),
      hclear (n + k) (by omega) (by omega),Bool.toNat_false,Nat.add_zero]

theorem bitmapWeight_update {i : Nat} (hi : i < n) (hclear : bm i = false) :
    bitmapWeight (Function.update bm i true) n = bitmapWeight bm n + 1 := by
  have hset : Function.update bm i true = bitmapSet bm i 1 := by
    funext j
    by_cases hj : j = i
    · simp [hj,bitmapSet]
    · have hout : (decide (i ≤ j) && decide (j < i + 1)) = false := by
        simp only [Bool.and_eq_false_imp,decide_eq_true_eq,decide_eq_false_iff_not]
        omega
      rw [Function.update_of_ne hj,bitmapSet,hout,Bool.or_false]
  have hweight := bitmapWeight_set bm (show i + 1 ≤ n from hi)
  rw [bitmapWeight_succ,hclear,Bool.toNat_false] at hweight
  rw [hset]
  omega

/-- The bits of a period that is repeated. -/
theorem bitmapWeight_periodic : bitmapWeight (fun i => bm (i % n)) (k * n) = k * bitmapWeight bm n := by
  induction k with
  | zero => simp
  | succ k ih =>
    rw [Nat.succ_mul,bitmapWeight_add,ih,Nat.succ_mul]
    congr 1
    apply bitmapWeight_congr
    intro i hi
    rw [Nat.add_comm,Nat.add_mul_mod_self_right,Nat.mod_eq_of_lt hi]

/-! ## Groups of bits -/

def bitmapSpread (w : Nat) (pm : Nat → Bool) : Nat → Bool := fun i => pm (i / w)

theorem bitmapWeight_spread (hw : 0 < w) (pm : Nat → Bool) (n : Nat) :
    bitmapWeight (bitmapSpread w pm) (n * w) = bitmapWeight pm n * w := by
  induction n with
  | zero => simp
  | succ n ih =>
    have hlast : bitmapWeight (fun i => bitmapSpread w pm (n * w + i)) w = (pm n).toNat * w := by
      have hconst : bitmapWeight (fun i => bitmapSpread w pm (n * w + i)) w = bitmapWeight (fun _ => pm n) w := by
        apply bitmapWeight_congr
        intro i hi
        rw [bitmapSpread,Nat.add_comm,Nat.add_mul_div_right _ _ hw,Nat.div_eq_of_lt hi,Nat.zero_add]
      rw [hconst]
      cases hp : pm n <;> simp [bitmapWeight]
    rw [Nat.succ_mul,bitmapWeight_add,hlast,ih,bitmapWeight_succ,Nat.add_mul]

theorem bitmapSet_spread (hw : 0 < w) (pm : Nat → Bool) (p len : Nat) :
    bitmapSet (bitmapSpread w pm) (p * w) (len * w) = bitmapSpread w (bitmapSet pm p len) := by
  funext i
  rw [bitmapSpread,bitmapSet,bitmapSet,← Nat.add_mul]
  congr 2
  · simp [Nat.le_div_iff_mul_le hw]
  · simp [Nat.div_lt_iff_lt_mul hw]

theorem bitmapShiftLeft_spread (hw : 0 < w) (pm : Nat → Bool) (p n : Nat) :
    bitmapShiftLeft (bitmapSpread w pm) (p * w) (n * w) = bitmapSpread w (bitmapShiftLeft pm p n) := by
  funext i
  have hdiv : (i - p * w) / w = i / w - p := by rw [Nat.mul_comm,Nat.sub_mul_div]
  rw [bitmapSpread,bitmapShiftLeft,bitmapShiftLeft,bitmapSpread,hdiv]
  congr 2
  · simp [Nat.le_div_iff_mul_le hw]
  · simp [Nat.div_lt_iff_lt_mul hw]

end Sdssd.Framework
