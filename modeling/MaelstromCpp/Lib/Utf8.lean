/-
UTF-8 byte by byte.

A byte string is well formed if it encodes characters.  The bytes that may follow
the first byte of a character lie in ranges that this byte determines, so one can
tell while reading: `owed` is what the bytes to come have to lie in.

* `isChar_cons_iff` — one character is a first byte and followers in its ranges;
* `foldlM_advance_iff` — reading byte by byte ends with nothing owed exactly on
  the well-formed strings.
-/
import Mathlib.Data.List.Forall2

namespace Utf8

/-- The encoding of one character. -/
def IsChar (u : List UInt8) : Prop := ∃ c : Char, u = String.utf8EncodeChar c

/-- The encoding of some characters. -/
def WellFormed (s : List UInt8) : Prop := ∃ cs : List Char, s = cs.flatMap String.utf8EncodeChar

/-- An inclusive range of bytes. -/
abbrev Range := UInt8 × UInt8

def Within (b : UInt8) (r : Range) : Prop := r.1 ≤ b ∧ b ≤ r.2

instance decidableWithin (b : UInt8) (r : Range) : Decidable (Within b r) :=
  inferInstanceAs (Decidable (r.1 ≤ b ∧ b ≤ r.2))

/-- The range of most bytes that follow another. -/
def tail : Range := (0x80, 0xBF)

/-- The ranges of the bytes after a first byte, if a character begins with it. -/
def followers (b : UInt8) : Option (List Range) :=
  if b < 0x80 then some []
  else if b < 0xC2 then none
  else if b < 0xE0 then some [tail]
  else if b = 0xE0 then some [(0xA0, 0xBF), tail]
  else if b = 0xED then some [(0x80, 0x9F), tail]
  else if b < 0xF0 then some [tail, tail]
  else if b = 0xF0 then some [(0x90, 0xBF), tail, tail]
  else if b < 0xF4 then some [tail, tail, tail]
  else if b = 0xF4 then some [(0x80, 0x8F), tail, tail]
  else none

/-! ### One character -/

theorem within_iff {b : UInt8} {r : Range} :
    Within b r ↔ r.1.toNat ≤ b.toNat ∧ b.toNat ≤ r.2.toNat := by
  rw [Within, UInt8.le_iff_toNat_le, UInt8.le_iff_toNat_le]

theorem exists_char {v : ℕ} (h : v < 0xD800 ∨ 0xDFFF < v ∧ v < 0x110000) :
    ∃ c : Char, c.val.toNat = v := by
  have hv : (UInt32.ofNat v).toNat = v := UInt32.toNat_ofNat_of_lt' (by simp [UInt32.size]; omega)
  refine ⟨⟨UInt32.ofNat v, ?_⟩, hv⟩
  rw [UInt32.isValidChar, hv]
  exact h

/-- A first byte and the ranges of the bytes after it. -/
inductive Leads (b : UInt8) : List Range → Prop
  | one (h : b.toNat < 0x80) : Leads b []
  | two (h : 0xC2 ≤ b.toNat) (h' : b.toNat < 0xE0) : Leads b [tail]
  | e0 (h : b.toNat = 0xE0) : Leads b [(0xA0, 0xBF), tail]
  | ed (h : b.toNat = 0xED) : Leads b [(0x80, 0x9F), tail]
  | three (h : 0xE0 < b.toNat) (h' : b.toNat < 0xF0) (hne : b.toNat ≠ 0xED) : Leads b [tail, tail]
  | f0 (h : b.toNat = 0xF0) : Leads b [(0x90, 0xBF), tail, tail]
  | four (h : 0xF0 < b.toNat) (h' : b.toNat < 0xF4) : Leads b [tail, tail, tail]
  | f4 (h : b.toNat = 0xF4) : Leads b [(0x80, 0x8F), tail, tail]

theorem followers_eq_some {b : UInt8} {ranges : List Range} :
    followers b = some ranges ↔ Leads b ranges := by
  simp only [followers, UInt8.lt_iff_toNat_lt, ← UInt8.toNat_inj, UInt8.reduceToNat]
  constructor
  · intro h
    split_ifs at h with h₁ h₂ h₃ h₄ h₅ h₆ h₇ h₈ h₉ <;> cases h
    · exact .one h₁
    · exact .two (by omega) h₃
    · exact .e0 h₄
    · exact .ed h₅
    · exact .three (by omega) h₆ h₅
    · exact .f0 h₇
    · exact .four (by omega) h₈
    · exact .f4 h₉
  · rintro (h | ⟨h, h'⟩ | h | h | ⟨h, h', hne⟩ | h | ⟨h, h'⟩ | h)
    all_goals split_ifs <;> first | rfl | omega

theorem utf8EncodeChar_cases (c : Char) {v : ℕ} (hv : c.val.toNat = v) :
    (v < 0x80 ∧ String.utf8EncodeChar c = [UInt8.ofNat v]) ∨
    (0x80 ≤ v ∧ v < 0x800 ∧
      String.utf8EncodeChar c = [UInt8.ofNat (v / 64 + 0xC0), UInt8.ofNat (v % 64 + 0x80)]) ∨
    (0x800 ≤ v ∧ v < 0x10000 ∧ (v < 0xD800 ∨ 0xDFFF < v) ∧
      String.utf8EncodeChar c = [UInt8.ofNat (v / 4096 + 0xE0), UInt8.ofNat (v / 64 % 64 + 0x80),
        UInt8.ofNat (v % 64 + 0x80)]) ∨
    (0x10000 ≤ v ∧ v < 0x110000 ∧
      String.utf8EncodeChar c = [UInt8.ofNat (v / 262144 + 0xF0),
        UInt8.ofNat (v / 4096 % 64 + 0x80), UInt8.ofNat (v / 64 % 64 + 0x80),
        UInt8.ofNat (v % 64 + 0x80)]) := by
  have hvalid : v < 0xD800 ∨ 0xDFFF < v ∧ v < 0x110000 := hv ▸ c.valid
  rw [String.utf8EncodeChar, hv]
  by_cases h₁ : v ≤ 0x7F
  · exact .inl ⟨by omega, if_pos h₁⟩
  · rw [if_neg h₁]
    by_cases h₂ : v ≤ 0x7FF
    · rw [if_pos h₂, Nat.mod_eq_of_lt (b := 0x20) (by omega)]
      exact .inr (.inl ⟨by omega, by omega, rfl⟩)
    · rw [if_neg h₂]
      by_cases h₃ : v ≤ 0xFFFF
      · rw [if_pos h₃, Nat.mod_eq_of_lt (b := 0x10) (by omega)]
        exact .inr (.inr (.inl ⟨by omega, by omega, by omega, rfl⟩))
      · rw [if_neg h₃, Nat.mod_eq_of_lt (b := 0x08) (by omega)]
        exact .inr (.inr (.inr ⟨by omega, by omega, rfl⟩))

theorem toNat_ofNat {n : ℕ} (h : n < 256) : (UInt8.ofNat n).toNat = n :=
  UInt8.toNat_ofNat_of_lt' h

theorem ofNat_eq_iff {n : ℕ} (h : n < 256) {b : UInt8} : b = UInt8.ofNat n ↔ b.toNat = n := by
  rw [← UInt8.toNat_inj, toNat_ofNat h]

theorem within_tail_iff {b : UInt8} : Within b tail ↔ 0x80 ≤ b.toNat ∧ b.toNat ≤ 0xBF :=
  within_iff

theorem within_tail (n : ℕ) : Within (UInt8.ofNat (n % 64 + 0x80)) tail := by
  rw [within_tail_iff, toNat_ofNat (by omega)]
  omega

/-- The bytes of a character are a first byte and its followers. -/
theorem leads_of_char (c : Char) : ∃ b bs ranges, String.utf8EncodeChar c = b :: bs ∧
    Leads b ranges ∧ List.Forall₂ Within bs ranges := by
  obtain ⟨v, hv⟩ : ∃ v, c.val.toNat = v := ⟨_, rfl⟩
  rcases utf8EncodeChar_cases c hv with ⟨h, heq⟩ | ⟨h, h', heq⟩ | ⟨h, h', hs, heq⟩ | ⟨h, h', heq⟩
  · have hb := toNat_ofNat (n := v) (by omega)
    exact ⟨_, _, _, heq, .one (by omega), .nil⟩
  · have hb := toNat_ofNat (n := v / 64 + 0xC0) (by omega)
    exact ⟨_, _, _, heq, .two (by omega) (by omega), .cons (within_tail v) .nil⟩
  · have hb := toNat_ofNat (n := v / 4096 + 0xE0) (by omega)
    have hb' := toNat_ofNat (n := v / 64 % 64 + 0x80) (by omega)
    have htails := List.Forall₂.cons (within_tail v) .nil
    by_cases h0 : v / 4096 = 0
    · refine ⟨_, _, _, heq, .e0 (by omega), .cons (within_iff.mpr ⟨?_, ?_⟩) htails⟩
      · rw [hb']
        show 0xA0 ≤ _
        omega
      · rw [hb']
        show _ ≤ 0xBF
        omega
    · by_cases hD : v / 4096 = 0xD
      · refine ⟨_, _, _, heq, .ed (by omega), .cons (within_iff.mpr ⟨?_, ?_⟩) htails⟩
        · rw [hb']
          show 0x80 ≤ _
          omega
        · rw [hb']
          show _ ≤ 0x9F
          omega
      · exact ⟨_, _, _, heq, .three (by omega) (by omega) (by omega),
          .cons (within_tail _) htails⟩
  · have hb := toNat_ofNat (n := v / 262144 + 0xF0) (by omega)
    have hb' := toNat_ofNat (n := v / 4096 % 64 + 0x80) (by omega)
    have htails := List.Forall₂.cons (within_tail (v / 64)) (.cons (within_tail v) .nil)
    by_cases h0 : v / 262144 = 0
    · refine ⟨_, _, _, heq, .f0 (by omega), .cons (within_iff.mpr ⟨?_, ?_⟩) htails⟩
      · rw [hb']
        show 0x90 ≤ _
        omega
      · rw [hb']
        show _ ≤ 0xBF
        omega
    · by_cases h4 : v / 262144 = 4
      · refine ⟨_, _, _, heq, .f4 (by omega), .cons (within_iff.mpr ⟨?_, ?_⟩) htails⟩
        · rw [hb']
          show 0x80 ≤ _
          omega
        · rw [hb']
          show _ ≤ 0x8F
          omega
      · exact ⟨_, _, _, heq, .four (by omega) (by omega), .cons (within_tail _) htails⟩

theorem isChar_one {b : UInt8} (h : b.toNat < 0x80) : IsChar [b] := by
  obtain ⟨c, hc⟩ := exists_char (v := b.toNat) (by omega)
  refine ⟨c, ?_⟩
  rcases utf8EncodeChar_cases c hc with ⟨-, heq⟩ | ⟨h', -⟩ | ⟨h', -⟩ | ⟨h', -⟩
  · rw [heq, UInt8.ofNat_toNat]
  all_goals omega

theorem isChar_two {b b₁ : UInt8} (h : 0xC2 ≤ b.toNat) (h' : b.toNat < 0xE0)
    (h₁ : Within b₁ tail) : IsChar [b, b₁] := by
  rw [within_tail_iff] at h₁
  obtain ⟨v, hv⟩ : ∃ v, v = (b.toNat - 0xC0) * 64 + (b₁.toNat - 0x80) := ⟨_, rfl⟩
  obtain ⟨c, hc⟩ := exists_char (v := v) (by omega)
  refine ⟨c, ?_⟩
  rcases utf8EncodeChar_cases c hc with ⟨hlt, -⟩ | ⟨hle, hlt, heq⟩ | ⟨hle, -⟩ | ⟨hle, -⟩
  · omega
  · rw [heq, (ofNat_eq_iff (by omega)).mpr (show b.toNat = v / 64 + 0xC0 by omega),
      (ofNat_eq_iff (by omega)).mpr (show b₁.toNat = v % 64 + 0x80 by omega)]
  all_goals omega

theorem isChar_three {b b₁ b₂ : UInt8} (h : 0xE0 ≤ b.toNat) (h' : b.toNat < 0xF0)
    (h₁ : Within b₁ tail) (h₂ : Within b₂ tail) (h0 : b.toNat = 0xE0 → 0xA0 ≤ b₁.toNat)
    (hD : b.toNat = 0xED → b₁.toNat ≤ 0x9F) : IsChar [b, b₁, b₂] := by
  rw [within_tail_iff] at h₁ h₂
  obtain ⟨v, hv⟩ : ∃ v, v = (b.toNat - 0xE0) * 4096 + (b₁.toNat - 0x80) * 64 + (b₂.toNat - 0x80) :=
    ⟨_, rfl⟩
  obtain ⟨c, hc⟩ := exists_char (v := v) (by omega)
  refine ⟨c, ?_⟩
  rcases utf8EncodeChar_cases c hc with ⟨hlt, -⟩ | ⟨hle, hlt, -⟩ | ⟨hle, -, -, heq⟩ | ⟨hle, -⟩
  · omega
  · omega
  · rw [heq, (ofNat_eq_iff (by omega)).mpr (show b.toNat = v / 4096 + 0xE0 by omega),
      (ofNat_eq_iff (by omega)).mpr (show b₁.toNat = v / 64 % 64 + 0x80 by omega),
      (ofNat_eq_iff (by omega)).mpr (show b₂.toNat = v % 64 + 0x80 by omega)]
  · omega

theorem isChar_four {b b₁ b₂ b₃ : UInt8} (h : 0xF0 ≤ b.toNat) (h' : b.toNat ≤ 0xF4)
    (h₁ : Within b₁ tail) (h₂ : Within b₂ tail) (h₃ : Within b₃ tail)
    (h0 : b.toNat = 0xF0 → 0x90 ≤ b₁.toNat) (h4 : b.toNat = 0xF4 → b₁.toNat ≤ 0x8F) :
    IsChar [b, b₁, b₂, b₃] := by
  rw [within_tail_iff] at h₁ h₂ h₃
  obtain ⟨v, hv⟩ : ∃ v, v = (b.toNat - 0xF0) * 262144 + (b₁.toNat - 0x80) * 4096
      + (b₂.toNat - 0x80) * 64 + (b₃.toNat - 0x80) := ⟨_, rfl⟩
  obtain ⟨c, hc⟩ := exists_char (v := v) (by omega)
  refine ⟨c, ?_⟩
  rcases utf8EncodeChar_cases c hc with ⟨hlt, -⟩ | ⟨hle, hlt, -⟩ | ⟨hle, hlt, -⟩ | ⟨-, -, heq⟩
  · omega
  · omega
  · omega
  · rw [heq, (ofNat_eq_iff (by omega)).mpr (show b.toNat = v / 262144 + 0xF0 by omega),
      (ofNat_eq_iff (by omega)).mpr (show b₁.toNat = v / 4096 % 64 + 0x80 by omega),
      (ofNat_eq_iff (by omega)).mpr (show b₂.toNat = v / 64 % 64 + 0x80 by omega),
      (ofNat_eq_iff (by omega)).mpr (show b₃.toNat = v % 64 + 0x80 by omega)]

/-- The narrow ranges lie in the wide one. -/
theorem Within.widen {b : UInt8} {r : Range} (h : Within b r) (hlow : 0x80 ≤ r.1.toNat)
    (hhigh : r.2.toNat ≤ 0xBF) : Within b tail := by
  rw [within_iff] at h
  exact within_tail_iff.mpr ⟨Nat.le_trans hlow h.1, Nat.le_trans h.2 hhigh⟩

/-- A first byte with its followers is a character. -/
theorem isChar_of_leads {b : UInt8} {bs : List UInt8} {ranges : List Range}
    (hb : Leads b ranges) (hbs : List.Forall₂ Within bs ranges) : IsChar (b :: bs) := by
  cases hb with
  | one h =>
    cases hbs
    exact isChar_one h
  | two h h' =>
    obtain _ | ⟨h₁, _ | _⟩ := hbs
    exact isChar_two h h' h₁
  | e0 h =>
    obtain _ | ⟨h₁, _ | ⟨h₂, _ | _⟩⟩ := hbs
    exact isChar_three (by omega) (by omega) (h₁.widen (by decide) (by decide)) h₂
      (fun _ => (within_iff.mp h₁).1) (by omega)
  | ed h =>
    obtain _ | ⟨h₁, _ | ⟨h₂, _ | _⟩⟩ := hbs
    exact isChar_three (by omega) (by omega) (h₁.widen (by decide) (by decide)) h₂
      (by omega) fun _ => (within_iff.mp h₁).2
  | three h h' hne =>
    obtain _ | ⟨h₁, _ | ⟨h₂, _ | _⟩⟩ := hbs
    exact isChar_three (by omega) h' h₁ h₂ (by omega) (by omega)
  | f0 h =>
    obtain _ | ⟨h₁, _ | ⟨h₂, _ | ⟨h₃, _ | _⟩⟩⟩ := hbs
    exact isChar_four (by omega) (by omega) (h₁.widen (by decide) (by decide)) h₂ h₃
      (fun _ => (within_iff.mp h₁).1) (by omega)
  | four h h' =>
    obtain _ | ⟨h₁, _ | ⟨h₂, _ | ⟨h₃, _ | _⟩⟩⟩ := hbs
    exact isChar_four (by omega) (by omega) h₁ h₂ h₃ (by omega) (by omega)
  | f4 h =>
    obtain _ | ⟨h₁, _ | ⟨h₂, _ | ⟨h₃, _ | _⟩⟩⟩ := hbs
    exact isChar_four (by omega) (by omega) (h₁.widen (by decide) (by decide)) h₂ h₃
      (by omega) fun _ => (within_iff.mp h₁).2

/-- **One character is a first byte with followers in its ranges.** -/
theorem isChar_cons_iff {b : UInt8} {bs : List UInt8} :
    IsChar (b :: bs) ↔ ∃ ranges, followers b = some ranges ∧ List.Forall₂ Within bs ranges := by
  simp only [followers_eq_some]
  constructor
  · rintro ⟨c, hc⟩
    obtain ⟨b', bs', ranges, heq, hb, hbs⟩ := leads_of_char c
    obtain ⟨rfl, rfl⟩ := List.cons.inj (hc.trans heq)
    exact ⟨ranges, hb, hbs⟩
  · rintro ⟨ranges, hb, hbs⟩
    exact isChar_of_leads hb hbs

/-! ### Strings -/

theorem WellFormed.nil : WellFormed [] := ⟨[], rfl⟩

theorem WellFormed.append {s t : List UInt8} (hs : WellFormed s) (ht : WellFormed t) :
    WellFormed (s ++ t) := by
  obtain ⟨cs, rfl⟩ := hs
  obtain ⟨ds, rfl⟩ := ht
  exact ⟨cs ++ ds, (List.flatMap_append ..).symm⟩

theorem IsChar.wellFormed {u : List UInt8} (h : IsChar u) : WellFormed u := by
  obtain ⟨c, rfl⟩ := h
  exact ⟨[c], by simp⟩

/-- Read one more byte: what is owed after it. -/
def advance (owed : List Range) (b : UInt8) : Option (List Range) :=
  match owed with
  | [] => followers b
  | r :: owed => if Within b r then some owed else none

/-- The string consists of what is owed, then of characters. -/
def Settles (owed : List Range) (s : List UInt8) : Prop :=
  ∃ u rest, s = u ++ rest ∧ List.Forall₂ Within u owed ∧ WellFormed rest

theorem settles_nil_iff {s : List UInt8} : Settles [] s ↔ WellFormed s := by
  constructor
  · rintro ⟨u, rest, rfl, hu, hrest⟩
    cases hu
    exact hrest
  · intro h
    exact ⟨[], s, rfl, .nil, h⟩

theorem settles_cons_iff {owed : List Range} {b : UInt8} {s : List UInt8} :
    Settles owed (b :: s) ↔ ∃ owed', advance owed b = some owed' ∧ Settles owed' s := by
  cases owed with
  | nil =>
    rw [settles_nil_iff]
    constructor
    · rintro ⟨cs, hcs⟩
      cases cs with
      | nil => cases hcs
      | cons c cs =>
        obtain ⟨b', bs, ranges, hc, hb, hbs⟩ := leads_of_char c
        rw [List.flatMap_cons, hc] at hcs
        obtain ⟨rfl, rfl⟩ := List.cons.inj hcs
        exact ⟨ranges, followers_eq_some.mpr hb, bs, _, rfl, hbs, cs, rfl⟩
    · rintro ⟨ranges, hb, u, rest, rfl, hu, hrest⟩
      exact (isChar_of_leads (followers_eq_some.mp hb) hu).wellFormed.append hrest
  | cons r owed =>
    constructor
    · rintro ⟨u, rest, heq, hu, hrest⟩
      obtain _ | ⟨hb, hu⟩ := hu
      obtain ⟨rfl, rfl⟩ := List.cons.inj heq
      exact ⟨owed, if_pos hb, _, rest, rfl, hu, hrest⟩
    · rintro ⟨owed', hadvance, u, rest, rfl, hu, hrest⟩
      rw [advance] at hadvance
      split_ifs at hadvance with hb
      obtain rfl := Option.some.inj hadvance
      exact ⟨b :: u, rest, rfl, .cons hb hu, hrest⟩

/-- **Reading byte by byte ends with nothing owed exactly on what settles it.** -/
theorem foldlM_advance_iff {owed : List Range} {s : List UInt8} :
    s.foldlM advance owed = some [] ↔ Settles owed s := by
  induction s generalizing owed with
  | nil =>
    constructor
    · intro h
      obtain rfl := Option.some.inj h
      exact settles_nil_iff.mpr .nil
    · rintro ⟨u, rest, heq, hu, -⟩
      obtain ⟨rfl, -⟩ := List.append_eq_nil_iff.mp heq.symm
      cases hu
      rfl
  | cons b s ih =>
    rw [settles_cons_iff, List.foldlM_cons]
    simp [Option.bind_eq_some_iff, ih]

/-- A single byte is a character of its own. -/
theorem wellFormed_cons_iff {b : UInt8} (h : b < 0x80) {s : List UInt8} :
    WellFormed (b :: s) ↔ WellFormed s := by
  rw [← settles_nil_iff, ← settles_nil_iff, settles_cons_iff]
  simp [advance, followers, h]

theorem wellFormed_of_ascii {s : List UInt8} (h : s.all fun b => b < 0x80) : WellFormed s := by
  induction s with
  | nil => exact .nil
  | cons b s ih =>
    simp only [List.all_cons, Bool.and_eq_true, decide_eq_true_eq] at h
    exact (wellFormed_cons_iff h.1).mpr (ih h.2)

end Utf8
