import Mathlib.Data.Nat.Basic
import Mathlib.Tactic.Ring

/-!
# Bit-fields of a machine word

Reading a field is a division and a remainder of the word's value; writing it replaces that
digit and truncates the new value to the field's width, as an assignment to a C bit-field does.
-/

namespace Sdssd.Framework

/-- A field of `width` bits whose lowest bit is bit `offset` of the word. -/
structure BitField where
  offset : Nat
  width : Nat

namespace BitField

variable {n : Nat}

/-- Value of the field in a word. -/
def get (f : BitField) (w : BitVec n) : Nat := w.toNat / 2^f.offset % 2^f.width

/-- The word with the field overwritten. -/
def set (f : BitField) (w : BitVec n) (v : Nat) : BitVec n :=
  BitVec.ofNat n (w.toNat - f.get w * 2^f.offset + v % 2^f.width * 2^f.offset)

/-- The field lies inside words of `n` bits. -/
def Fits (f : BitField) (n : Nat) : Prop := f.offset + f.width ≤ n

/-- The fields share no bit. -/
def Apart (f g : BitField) : Prop :=
  f.offset + f.width ≤ g.offset ∨ g.offset + g.width ≤ f.offset

instance (f : BitField) (n : Nat) : Decidable (f.Fits n) :=
  inferInstanceAs (Decidable (f.offset + f.width ≤ n))

instance (f g : BitField) : Decidable (f.Apart g) :=
  inferInstanceAs (Decidable (_ ∨ _))

/-- A value is cut to the field's width when it is written. -/
theorem set_mod (f : BitField) (w : BitVec n) (v : Nat) : f.set w (v % 2^f.width) = f.set w v := by
  rw [set,set,Nat.mod_mod]

theorem get_lt (f : BitField) (w : BitVec n) : f.get w < 2^f.width :=
  Nat.mod_lt _ (Nat.two_pow_pos _)

/-- The part below the field, the field and the part above it make up the word. -/
theorem toNat_split (f : BitField) (w : BitVec n) :
    w.toNat = w.toNat % 2^f.offset + f.get w * 2^f.offset +
      w.toNat / 2^(f.offset+f.width) * 2^(f.offset+f.width) := by
  have hlow := Nat.mod_add_div w.toNat (2^f.offset)
  have hhigh := Nat.mod_add_div (w.toNat / 2^f.offset) (2^f.width)
  rw [Nat.div_div_eq_div_mul,← Nat.pow_add] at hhigh
  calc w.toNat = w.toNat % 2^f.offset + 2^f.offset * (w.toNat / 2^f.offset) := hlow.symm
    _ = w.toNat % 2^f.offset + 2^f.offset * (f.get w +
          2^f.width * (w.toNat / 2^(f.offset+f.width))) := by rw [← hhigh]; rfl
    _ = _ := by rw [Nat.pow_add]; ring

private theorem low_digit_lt (f : BitField) (w : BitVec n) (v : Nat) :
    w.toNat % 2^f.offset + v % 2^f.width * 2^f.offset < 2^(f.offset+f.width) := by
  have hlow : w.toNat % 2^f.offset < 2^f.offset := Nat.mod_lt _ (Nat.two_pow_pos _)
  have hv : v % 2^f.width < 2^f.width := Nat.mod_lt _ (Nat.two_pow_pos _)
  calc w.toNat % 2^f.offset + v % 2^f.width * 2^f.offset
      < 2^f.offset + v % 2^f.width * 2^f.offset := by omega
    _ = (v % 2^f.width + 1) * 2^f.offset := by ring
    _ ≤ 2^f.width * 2^f.offset := Nat.mul_le_mul_right _ hv
    _ = 2^(f.offset+f.width) := by rw [Nat.pow_add]; ring

theorem toNat_set {f : BitField} (hf : f.Fits n) (w : BitVec n) (v : Nat) :
    (f.set w v).toNat = w.toNat % 2^f.offset + v % 2^f.width * 2^f.offset +
      w.toNat / 2^(f.offset+f.width) * 2^(f.offset+f.width) := by
  have hs := toNat_split f w
  have hhigh : w.toNat / 2^(f.offset+f.width) < 2^(n-(f.offset+f.width)) := by
    rw [Nat.div_lt_iff_lt_mul (Nat.two_pow_pos _),← Nat.pow_add,Nat.sub_add_cancel hf]
    exact w.isLt
  have hdigit := low_digit_lt f w v
  have hword : w.toNat % 2^f.offset + v % 2^f.width * 2^f.offset +
      w.toNat / 2^(f.offset+f.width) * 2^(f.offset+f.width) < 2^n := by
    calc _ < 2^(f.offset+f.width) +
          w.toNat / 2^(f.offset+f.width) * 2^(f.offset+f.width) := by omega
      _ = (w.toNat / 2^(f.offset+f.width) + 1) * 2^(f.offset+f.width) := by ring
      _ ≤ 2^(n-(f.offset+f.width)) * 2^(f.offset+f.width) := Nat.mul_le_mul_right _ hhigh
      _ = 2^n := by rw [← Nat.pow_add,Nat.sub_add_cancel hf]
  rw [set,BitVec.toNat_ofNat]
  have he : w.toNat - f.get w * 2^f.offset + v % 2^f.width * 2^f.offset =
      w.toNat % 2^f.offset + v % 2^f.width * 2^f.offset +
        w.toNat / 2^(f.offset+f.width) * 2^(f.offset+f.width) := by omega
  rw [he,Nat.mod_eq_of_lt hword]

theorem get_set {f : BitField} (hf : f.Fits n) (w : BitVec n) (v : Nat) :
    f.get (f.set w v) = v % 2^f.width := by
  have hlow : w.toNat % 2^f.offset < 2^f.offset := Nat.mod_lt _ (Nat.two_pow_pos _)
  have hsum : w.toNat % 2^f.offset + v % 2^f.width * 2^f.offset +
      w.toNat / 2^(f.offset+f.width) * 2^(f.offset+f.width) =
      w.toNat % 2^f.offset + 2^f.offset * (v % 2^f.width +
        2^f.width * (w.toNat / 2^(f.offset+f.width))) := by rw [Nat.pow_add]; ring
  rw [get,toNat_set hf,hsum,Nat.add_mul_div_left _ _ (Nat.two_pow_pos _),
    Nat.div_eq_of_lt hlow,Nat.zero_add,Nat.add_mul_mod_self_left,Nat.mod_mod]

/-- Only the last of two writes to a field counts. -/
theorem set_set {f : BitField} (hf : f.Fits n) (w : BitVec n) (u v : Nat) :
    f.set (f.set w u) v = f.set w v := by
  apply BitVec.eq_of_toNat_eq
  have hdigit := low_digit_lt f w u
  have hlow : (f.set w u).toNat % 2^f.offset = w.toNat % 2^f.offset := by
    have hsum : w.toNat % 2^f.offset + u % 2^f.width * 2^f.offset +
        w.toNat / 2^(f.offset+f.width) * 2^(f.offset+f.width) =
        w.toNat % 2^f.offset + 2^f.offset * (u % 2^f.width +
          w.toNat / 2^(f.offset+f.width) * 2^f.width) := by rw [Nat.pow_add]; ring
    rw [toNat_set hf,hsum,Nat.add_mul_mod_self_left,Nat.mod_mod]
  have hhigh : (f.set w u).toNat / 2^(f.offset+f.width) = w.toNat / 2^(f.offset+f.width) := by
    rw [toNat_set hf,Nat.add_mul_div_right _ _ (Nat.two_pow_pos _),Nat.div_eq_of_lt hdigit,
      Nat.zero_add]
  rw [toNat_set hf,toNat_set hf w v,hlow,hhigh]

/-- Writing back what a field holds changes nothing. -/
theorem set_get {f : BitField} (hf : f.Fits n) (w : BitVec n) : f.set w (f.get w) = w := by
  apply BitVec.eq_of_toNat_eq
  rw [toNat_set hf,Nat.mod_eq_of_lt (f.get_lt w),← toNat_split]

private theorem get_eq_mod_div (f : BitField) (w : BitVec n) :
    f.get w = w.toNat % 2^(f.offset+f.width) / 2^f.offset := by
  rw [get,Nat.pow_add,Nat.mod_mul_right_div_self]

/-- Writing one field leaves the others alone. -/
theorem get_set_of_apart {f g : BitField} (hf : f.Fits n) (h : f.Apart g)
    (w : BitVec n) (v : Nat) : g.get (f.set w v) = g.get w := by
  rcases h with h | h
  · -- `g` lies above `f`: only the quotient past `f` matters
    obtain ⟨k,hk⟩ := Nat.exists_eq_add_of_le h
    have hdiv (x : Nat) : x / 2^g.offset = x / 2^(f.offset+f.width) / 2^k := by
      rw [Nat.div_div_eq_div_mul,← Nat.pow_add,hk]
    rw [get,get,hdiv,hdiv w.toNat,toNat_set hf,Nat.add_mul_div_right _ _ (Nat.two_pow_pos _),
      Nat.div_eq_of_lt (low_digit_lt f w v),Nat.zero_add]
  · -- `g` lies below `f`: only the remainder below `f` matters
    have hdvd : 2^(g.offset+g.width) ∣ 2^f.offset := Nat.pow_dvd_pow 2 h
    have hdvd' : 2^(g.offset+g.width) ∣ 2^(f.offset+f.width) :=
      hdvd.trans (Nat.pow_dvd_pow 2 (Nat.le_add_right _ _))
    rw [get_eq_mod_div,get_eq_mod_div,toNat_set hf]
    congr 1
    obtain ⟨a,ha⟩ := hdvd
    obtain ⟨b,hb⟩ := hdvd'
    rw [hb,ha,show v % 2^f.width * (2^(g.offset+g.width) * a) =
        2^(g.offset+g.width) * (v % 2^f.width * a) by ring,
      show w.toNat / (2^(g.offset+g.width) * b) * (2^(g.offset+g.width) * b) =
        2^(g.offset+g.width) * (w.toNat / (2^(g.offset+g.width) * b) * b) by ring,
      Nat.add_mul_mod_self_left,Nat.add_mul_mod_self_left,Nat.mod_mul_right_mod]

/-- The word after the writes, in the order of the list. -/
def setAll (w : BitVec n) (fs : List (BitField × Nat)) : BitVec n :=
  fs.foldl (fun w p => p.1.set w p.2) w

theorem get_setAll_of_apart {fs : List (BitField × Nat)} {g : BitField} (hfit : ∀ p ∈ fs, p.1.Fits n)
    (hapart : ∀ p ∈ fs, g.Apart p.1) (w : BitVec n) : g.get (setAll w fs) = g.get w := by
  induction fs generalizing w with
  | nil => rfl
  | cons p fs ih =>
    have hrest := ih (fun q hq => hfit q (List.mem_cons_of_mem p hq))
      (fun q hq => hapart q (List.mem_cons_of_mem p hq)) (p.1.set w p.2)
    apply hrest.trans
    exact get_set_of_apart (hfit p List.mem_cons_self) (hapart p List.mem_cons_self).symm w p.2

/-- Fields that share no bit keep what is written into each of them. -/
theorem get_setAll {fs : List (BitField × Nat)} (hfit : ∀ p ∈ fs, p.1.Fits n)
    (hapart : fs.Pairwise fun p q => p.1.Apart q.1) {p : BitField × Nat} (hp : p ∈ fs) (w : BitVec n) :
    p.1.get (setAll w fs) = p.2 % 2^p.1.width := by
  induction fs generalizing w with
  | nil => cases hp
  | cons q fs ih =>
    have hfit' : ∀ r ∈ fs, r.1.Fits n := fun r hr => hfit r (List.mem_cons_of_mem q hr)
    cases hp with
    | head =>
      have hlater := get_setAll_of_apart hfit' (fun r hr => List.rel_of_pairwise_cons hapart hr)
        (p.1.set w p.2)
      apply hlater.trans
      exact get_set (hfit p List.mem_cons_self) w p.2
    | tail _ hp => exact ih hfit' hapart.of_cons hp (q.1.set w q.2)

end BitField

end Sdssd.Framework
