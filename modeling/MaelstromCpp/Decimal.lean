/-
What `dump_integer` writes.

The digits go into the buffer two by two from its end, which `count_digits` has
found before; they meet its beginning exactly.

* `dumpUnsigned_eq`, `dumpSigned_eq` — every integer of 64 bits is written in
  decimal, and no write misses the buffer.
-/
import MaelstromCpp.Serializer

namespace MaelstromCpp

/-- The decimal digits of a number. -/
def decimal (n : ℕ) : Bytes := (Nat.toDigits 10 n).map chr

theorem chr_digitChar {d : ℕ} (h : d < 10) : chr d.digitChar = (0x30 + d).toUInt8 := by
  revert d
  decide

theorem decimal_of_lt {n : ℕ} (h : n < 10) : decimal n = [(0x30 + n).toUInt8] := by
  rw [decimal, Nat.toDigits_of_lt_base h, List.map_singleton, chr_digitChar h]

theorem decimal_of_ge {n : ℕ} (h : 10 ≤ n) :
    decimal n = decimal (n / 10) ++ [(0x30 + n % 10).toUInt8] := by
  rw [decimal, Nat.toDigits_of_base_le (by decide) h, List.map_append, List.map_singleton,
    chr_digitChar (Nat.mod_lt _ (by decide))]
  rfl

theorem length_decimal_of_lt {n : ℕ} (h : n < 10) : (decimal n).length = 1 := by
  rw [decimal_of_lt h, List.length_singleton]

theorem length_decimal_of_ge {n : ℕ} (h : 10 ≤ n) :
    (decimal n).length = (decimal (n / 10)).length + 1 := by
  rw [decimal_of_ge h, List.length_append, List.length_singleton]

theorem length_decimal_le {n k : ℕ} (hk : 0 < k) (h : n < 10 ^ k) : (decimal n).length ≤ k := by
  rw [decimal, List.length_map]
  exact (Nat.length_toDigits_le_iff (by decide) hk).mpr h

namespace Serializer

/-- Four digits more than after the division. -/
theorem length_decimal_div {n : ℕ} (h : 10000 ≤ n) :
    (decimal n).length = (decimal (n / 10000)).length + 4 := by
  have hdiv : n / 10 / 10 / 10 / 10 = n / 10000 := by
    rw [Nat.div_div_eq_div_mul, Nat.div_div_eq_div_mul, Nat.div_div_eq_div_mul]
  rw [length_decimal_of_ge (by omega), length_decimal_of_ge (n := n / 10) (by omega),
    length_decimal_of_ge (n := n / 10 / 10) (by omega),
    length_decimal_of_ge (n := n / 10 / 10 / 10) (by omega), hdiv]

/-- `count_digits` counts from the digits it was given. -/
theorem countDigitsLoop_run (s : ℕ × ℕ) :
    countDigitsLoop.run s + 1 = s.2 + (decimal s.1).length := by
  refine Loop.run_induct (L := countDigitsLoop)
    (P := fun s r => r + 1 = s.2 + (decimal s.1).length) ?_ ?_ s
  · rintro ⟨x, k⟩ r hbody
    have hlt := @length_decimal_of_lt
    have hge := @length_decimal_of_ge
    simp only [countDigitsLoop, countDigitsBody] at hbody ⊢
    split_ifs at hbody with h₁ h₂ h₃ h₄
    · obtain rfl := Sum.inr.inj hbody
      rw [hlt h₁]
    · obtain rfl := Sum.inr.inj hbody
      rw [hge (by omega), hlt (by omega)]
    · obtain rfl := Sum.inr.inj hbody
      rw [hge (by omega), hge (n := x / 10) (by omega), hlt (by omega)]
    · obtain rfl := Sum.inr.inj hbody
      rw [hge (by omega), hge (n := x / 10) (by omega), hge (n := x / 10 / 10) (by omega),
        hlt (by omega)]
  · rintro ⟨x, k⟩ s' hbody ih
    simp only [countDigitsLoop, countDigitsBody] at hbody
    split_ifs at hbody with h₁ h₂ h₃ h₄
    obtain rfl := Sum.inl.inj hbody
    simp only at ih ⊢
    rw [length_decimal_div (by omega)]
    omega

theorem countDigits_eq (n : ℕ) : countDigits n = (decimal n).length := by
  have h := countDigitsLoop_run (n, 1)
  simp only at h
  rw [countDigits]
  omega

/-! ### The digits -/

theorem push_eq (front back : Bytes) (b c : UInt8) :
    NumberBuffer.push ⟨front ++ b :: back, front.length + 1⟩ c
      = .ok ⟨front ++ c :: back, front.length⟩ := by
  rw [NumberBuffer.push, if_pos (by simp)]
  simp

theorem pushPair_eq (front back : Bytes) (b b' : UInt8) (index : ℕ) :
    NumberBuffer.pushPair ⟨front ++ b :: b' :: back, front.length + 2⟩ index
      = .ok ⟨front ++ (digitsTo99 index).1 :: (digitsTo99 index).2 :: back, front.length⟩ := by
  have hsecond := push_eq (front ++ [b]) back b' (digitsTo99 index).2
  simp only [List.append_assoc, List.singleton_append, List.length_append,
    List.length_singleton] at hsecond
  rw [NumberBuffer.pushPair, hsecond]
  exact push_eq front _ b _

/-- The last two digits are a pair of the table. -/
theorem decimal_of_ge_hundred {n : ℕ} (h : 100 ≤ n) :
    decimal n = decimal (n / 100) ++ [(digitsTo99 (n % 100)).1, (digitsTo99 (n % 100)).2] := by
  have hdiv : n / 10 / 10 = n / 100 := Nat.div_div_eq_div_mul n 10 10
  have hmod : n / 10 % 10 = n % 100 / 10 := by omega
  have hmod' : n % 10 = n % 100 % 10 := by omega
  rw [decimal_of_ge (by omega), decimal_of_ge (n := n / 10) (by omega), hdiv, hmod, hmod',
    List.append_assoc]
  rfl

theorem decimal_of_pair {n : ℕ} (h : 10 ≤ n) (h' : n < 100) :
    decimal n = [(digitsTo99 n).1, (digitsTo99 n).2] := by
  rw [decimal_of_ge h, decimal_of_lt (by omega)]
  rfl

theorem exists_last_two {room : Bytes} {k : ℕ} (h : room.length = k + 2) :
    ∃ room' b b', room = room' ++ [b, b'] ∧ room'.length = k := by
  obtain ⟨b, b', hlast⟩ := List.length_eq_two.mp
    (show (room.drop k).length = 2 by rw [List.length_drop]; omega)
  refine ⟨room.take k, b, b', ?_, ?_⟩
  · rw [← hlast, List.take_append_drop]
  · rw [List.length_take]
    omega

/-- The room for the digits is filled with them, and they meet its beginning. -/
theorem dumpDigitsLoop_run (n : ℕ) {front room : Bytes} (h : room.length = (decimal n).length)
    (back : Bytes) :
    dumpDigitsLoop.run (n, ⟨front ++ room ++ back, front.length + room.length⟩)
      = .ok ⟨front ++ decimal n ++ back, front.length⟩ := by
  induction n using Nat.strongRecOn generalizing room back with
  | ind n ih =>
    by_cases hhundred : 100 ≤ n
    · have hdecimal := decimal_of_ge_hundred hhundred
      rw [hdecimal, List.length_append] at h
      obtain ⟨room, b, b', rfl, hroom⟩ := exists_last_two h
      have hpush := pushPair_eq (front ++ room) back b b' (n % 100)
      have hbody : dumpDigitsLoop.body
          (n, ⟨front ++ (room ++ [b, b']) ++ back, front.length + (room ++ [b, b']).length⟩)
          = .inl (n / 100, ⟨front ++ room ++
              ((digitsTo99 (n % 100)).1 :: (digitsTo99 (n % 100)).2 :: back),
            front.length + room.length⟩) := by
        simp only [dumpDigitsLoop, dumpDigitsBody, if_pos hhundred]
        simp only [List.append_assoc, List.cons_append, List.nil_append, List.length_append,
          List.length_cons, List.length_nil, Nat.add_assoc] at hpush ⊢
        rw [hpush]
      rw [Loop.run_of_inl hbody, ih (n / 100) (Nat.div_lt_self (by omega) (by decide)) hroom, hdecimal]
      simp
    · by_cases hten : 10 ≤ n
      · rw [decimal_of_pair hten (by omega)] at h ⊢
        obtain ⟨b, b', rfl⟩ := List.length_eq_two.mp h
        have hbody : dumpDigitsLoop.body (n, ⟨front ++ [b, b'] ++ back, front.length + 2⟩)
            = .inr (NumberBuffer.pushPair ⟨front ++ b :: b' :: back, front.length + 2⟩ n) := by
          simp [dumpDigitsLoop, dumpDigitsBody, hhundred, hten]
        rw [List.length_cons, List.length_singleton, Loop.run_of_inr hbody, pushPair_eq]
        simp
      · rw [decimal_of_lt (by omega)] at h ⊢
        obtain ⟨b, rfl⟩ := List.length_eq_one_iff.mp h
        have hbody : dumpDigitsLoop.body (n, ⟨front ++ [b] ++ back, front.length + 1⟩)
            = .inr (NumberBuffer.push ⟨front ++ b :: back, front.length + 1⟩ (0x30 + n).toUInt8) := by
          simp [dumpDigitsLoop, dumpDigitsBody, hhundred, hten]
        rw [List.length_singleton, Loop.run_of_inr hbody, push_eq]
        simp

/-! ### Integers -/

/-- The buffer has room for the sign and the digits. -/
theorem exists_room {buffer : Bytes} (hbuffer : buffer.length = 64) (negative : Bool) {k : ℕ}
    (hk : k ≤ 20) :
    ∃ room back, (if negative then buffer.set 0 (chr '-') else buffer)
        = (if negative then [chr '-'] else []) ++ room ++ back ∧ room.length = k := by
  cases negative with
  | false =>
    refine ⟨buffer.take k, buffer.drop k, ?_, ?_⟩
    · simp
    · rw [List.length_take]
      omega
  | true =>
    obtain ⟨b, rest, rfl⟩ := List.exists_cons_of_length_pos (l := buffer) (by omega)
    rw [List.length_cons] at hbuffer
    refine ⟨rest.take k, rest.drop k, ?_, ?_⟩
    · simp
    · rw [List.length_take]
      omega

/-- Whatever the buffer held before, the sign and the digits are written. -/
theorem dumpInteger_eq {buffer : Bytes} (hbuffer : buffer.length = 64) (negative : Bool)
    {x : UInt64} (hx : x ≠ 0) :
    dumpInteger buffer negative x
      = .ok ((if negative then [chr '-'] else []) ++ decimal x.toNat) := by
  have hle : (decimal x.toNat).length ≤ 20 :=
    length_decimal_le (by decide) (Nat.lt_trans x.toNat_lt (by decide))
  obtain ⟨room, back, hroom, hlength⟩ := exists_room hbuffer negative hle
  have hsign : (if negative then 1 else 0)
      = (if negative then [chr '-'] else [] : Bytes).length := by
    cases negative <;> rfl
  have hsmall : (if negative then [chr '-'] else [] : Bytes).length ≤ 1 := by
    cases negative <;> simp
  rw [dumpInteger, if_neg hx, countDigits_eq, hroom, hsign, ← hlength]
  generalize (if negative then [chr '-'] else [] : Bytes) = sign at hsmall ⊢
  have hrun : dumpDigitsLoop.run (x.toNat, ⟨sign ++ room ++ back, sign.length + room.length⟩)
      = .ok ⟨sign ++ decimal x.toNat ++ back, sign.length⟩ :=
    dumpDigitsLoop_run x.toNat hlength back
  simp only
  rw [if_neg (by omega), hrun]
  show Except.ok (List.take _ (sign ++ decimal x.toNat ++ back)) = _
  rw [List.take_left' (by rw [List.length_append, hlength])]

theorem length_numberBuffer : numberBuffer.length = 64 := List.length_replicate

theorem dumpInteger_nonneg (u : UInt64) : dumpInteger numberBuffer false u = .ok (decimal u.toNat) := by
  by_cases hu : u = 0
  · subst hu
    rfl
  · rw [dumpInteger_eq length_numberBuffer false hu]
    rfl

theorem toInt_eq (i : Int64) :
    i.toInt = if i.toUInt64.toNat < 2 ^ 63 then (i.toUInt64.toNat : ℤ)
      else i.toUInt64.toNat - 2 ^ 64 := by
  have h := BitVec.toInt_eq_toNat_cond i.toBitVec
  rw [Int64.toNat_toBitVec] at h
  rw [← Int64.toInt_toBitVec, h]
  split_ifs <;> omega

/-- The detour over `x + 1` changes nothing, as arithmetic wraps. -/
theorem removeSign_eq (i : Int64) : removeSign i = -i.toUInt64 := by
  rw [removeSign, Int64.toUInt64_neg, Int64.toUInt64_add, UInt64.neg_add]
  exact UInt64.sub_add_cancel _ _

theorem toNat_removeSign {i : Int64} (h : i < 0) : (removeSign i).toNat = i.toInt.natAbs := by
  have hneg : i.toInt < 0 := Int64.lt_iff_toInt_lt.mp h
  have hlt := i.toUInt64.toNat_lt
  rw [toInt_eq] at hneg ⊢
  rw [removeSign_eq, UInt64.toNat_neg]
  split_ifs at hneg ⊢ <;> simp only [UInt64.size] <;> omega

theorem dumpSigned_of_neg {i : Int64} (h : i < 0) :
    dumpSigned i = .ok (chr '-' :: decimal i.toInt.natAbs) := by
  have hneg : i.toInt < 0 := Int64.lt_iff_toInt_lt.mp h
  have hne : removeSign i ≠ 0 := by
    intro hzero
    have habs := toNat_removeSign h
    rw [hzero] at habs
    have heq : i.toInt = 0 := Int.natAbs_eq_zero.mp habs.symm
    omega
  rw [dumpSigned, if_pos h, dumpInteger_eq length_numberBuffer true hne, toNat_removeSign h]
  rfl

theorem toNat_toUInt64_of_nonneg {i : Int64} (h : ¬ i < 0) : (i.toUInt64.toNat : ℤ) = i.toInt := by
  have hnonneg : ¬ i.toInt < 0 := fun hneg => h (Int64.lt_iff_toInt_lt.mpr hneg)
  have hlt := i.toUInt64.toNat_lt
  rw [toInt_eq] at hnonneg ⊢
  split_ifs at hnonneg ⊢ <;> omega

theorem ascii_toString (n : ℕ) : ascii (toString n) = decimal n := by
  rw [ascii, decimal, ← Nat.toList_repr]
  rfl

theorem ascii_toString_of_neg {i : ℤ} (h : i < 0) : ascii (toString i) = chr '-' :: decimal i.natAbs := by
  obtain ⟨m, rfl⟩ := Int.eq_negSucc_of_lt_zero h
  rw [Int.natAbs_negSucc, ← ascii_toString]
  show ascii ("-" ++ toString (m + 1)) = _
  rw [ascii, String.toList_append]
  rfl

/-- **An unsigned integer is written in decimal.** -/
theorem dumpUnsigned_eq (u : UInt64) : dumpUnsigned u = .ok (ascii (toString u.toNat)) := by
  rw [ascii_toString]
  exact dumpInteger_nonneg u

/-- **A signed integer is written in decimal**, the smallest one as well. -/
theorem dumpSigned_eq (i : Int64) : dumpSigned i = .ok (ascii (toString i.toInt)) := by
  by_cases h : i < 0
  · rw [dumpSigned_of_neg h, ascii_toString_of_neg (Int64.lt_iff_toInt_lt.mp h)]
  · rw [dumpSigned, if_neg h, dumpInteger_nonneg, ← toNat_toUInt64_of_nonneg h, ← ascii_toString]
    rfl

end Serializer

end MaelstromCpp
