/-
What `scan_number` reads.

A number ends where no label of `scan_number` leads on, so its text is the same token
at the end of the input and before a comma or a bracket.

* `ReadsNumber.scan` — the text of a number is read as it is alone, whatever comes
  after the delimiter;
* `integers_read_back` — the integers of 64 bits are written in decimal and read back.
-/
import MaelstromCpp.Decimal

namespace MaelstromCpp

/-- What may follow a value inside a container; at the end of the text nothing does. -/
def Delimited (tail : Bytes) : Prop :=
  ∀ c ∈ tail.head?, c = chr ',' ∨ c = chr ']' ∨ c = chr '\x7d'

theorem delimited_nil : Delimited [] := by simp [Delimited]

theorem delimited_cons {c : UInt8} (h : c = chr ',' ∨ c = chr ']' ∨ c = chr '\x7d') (tail : Bytes) :
    Delimited (c :: tail) := by
  intro b hb
  obtain rfl : c = b := by simpa using hb
  exact h

namespace Lexer

variable {strtod : Bytes → UInt64} {token : Token} {tail : Bytes}

/-- The text is that of one number. -/
def ReadsNumber (strtod : Bytes → UInt64) (text : Bytes) (token : Token) : Prop :=
  ∃ c rest, text = c :: rest ∧ (c = chr '-' ∨ isDigit c = true) ∧
    scanNumber strtod c rest = (token, [])

/-! ### Where a number ends -/

theorem next_delimiter {c : UInt8} (h : c = chr ',' ∨ c = chr ']' ∨ c = chr '\x7d')
    (state : NumberState) : state.next c = none := by
  rcases h with rfl | rfl | rfl <;> cases state <;> rfl

/-- A number at the end of the input ends there before a delimiter, too. -/
theorem scanNumberLoop_append (htail : Delimited tail) {state : NumberState}
    {type type' : NumberType} {buffer buffer' input : Bytes}
    (h : scanNumberLoop state type buffer input = some (type', buffer', [])) :
    scanNumberLoop state type buffer (input ++ tail) = some (type', buffer', tail) := by
  induction input generalizing state type buffer with
  | nil =>
    rw [scanNumberLoop] at h
    split_ifs at h with hdone
    obtain ⟨rfl, rfl, -⟩ := h
    cases tail with
    | nil => exact if_pos hdone
    | cons c tail =>
      rw [List.nil_append, scanNumberLoop, next_delimiter (htail c rfl)]
      exact if_pos hdone
  | cons c input ih =>
    rw [List.cons_append, scanNumberLoop]
    rw [scanNumberLoop] at h
    cases hnext : state.next c with
    | some state' =>
      rw [hnext] at h
      exact ih h
    | none =>
      rw [hnext] at h
      simp only at h
      split_ifs at h
      cases h

theorem scanNumber_append (htail : Delimited tail) {c : UInt8} {input : Bytes}
    (h : scanNumber strtod c input = (token, [])) (htoken : token ≠ .parseError) :
    scanNumber strtod c (input ++ tail) = (token, tail) := by
  rw [scanNumber] at h ⊢
  split at h
  · rename_i type buffer rest hloop
    obtain ⟨rfl, rfl⟩ := Prod.mk.inj h
    rw [scanNumberLoop_append htail hloop]
  · exact absurd (Prod.mk.inj h).1.symm htoken

/-- The token that begins with a sign or a digit is a number. -/
theorem scan_number {c : UInt8} (h : c = chr '-' ∨ isDigit c = true) (input : Bytes) :
    scan strtod (c :: input) = scanNumber strtod c input := by
  have hne {d : UInt8} (hd : d ≠ chr '-' ∧ isDigit d = false) : c ≠ d := by
    rintro rfl
    rcases h with h | h
    · exact hd.1 h
    · cases hd.2.symm.trans h
  have hspace : isWhitespace c = false := by
    simp [isWhitespace, hne (d := chr ' ') (by decide), hne (d := 0x09) (by decide),
      hne (d := 0x0A) (by decide), hne (d := 0x0D) (by decide)]
  rw [scan, List.dropWhile_cons, hspace]
  show scanFrom strtod c input = _
  rw [scanFrom, if_neg (hne (by decide)), if_neg (hne (by decide)), if_neg (hne (by decide)),
    if_neg (hne (by decide)), if_neg (hne (by decide)), if_neg (hne (by decide)),
    if_neg (hne (by decide)), if_neg (hne (by decide)), if_neg (hne (by decide)),
    if_neg (hne (by decide)), if_pos (by simpa using h)]

/-- **The text of a number is read as it is alone.** -/
theorem ReadsNumber.scan {text : Bytes} (h : ReadsNumber strtod text token)
    (htoken : token ≠ .parseError) (htail : Delimited tail) :
    scan strtod (text ++ tail) = (token, tail) := by
  obtain ⟨c, rest, rfl, hc, hscan⟩ := h
  rw [List.cons_append, scan_number hc]
  exact scanNumber_append htail hscan htoken

/-! ### The bytes of a number -/

theorem ge_of_isDigit {c : UInt8} (h : isDigit c = true) : 0x20 ≤ c.toNat := by
  simp only [isDigit, Bool.and_eq_true, decide_eq_true_eq, UInt8.le_iff_toNat_le] at h
  exact Nat.le_trans (by decide) h.1

/-- No label leads on at a control character. -/
theorem ge_of_next {c : UInt8} {state state' : NumberState} (h : state.next c = some state') :
    0x20 ≤ c.toNat := by
  by_contra hlt
  have hne {d : UInt8} (hd : 0x20 ≤ d.toNat) : c ≠ d := by
    rintro rfl
    exact hlt hd
  have hdigit : isDigit c = false := by
    by_contra hdigit
    exact hlt (ge_of_isDigit (by simpa using hdigit))
  have hexponent : isExponent c = false := by
    simp [isExponent, hne (d := chr 'e') (by decide), hne (d := chr 'E') (by decide)]
  cases state <;>
    simp [NumberState.next, hdigit, hexponent, hne (d := chr '0') (by decide),
      hne (d := chr '.') (by decide), hne (d := chr '+') (by decide),
      hne (d := chr '-') (by decide)] at h

theorem ge_of_scanNumberLoop {state : NumberState} {type type' : NumberType}
    {buffer buffer' input : Bytes}
    (h : scanNumberLoop state type buffer input = some (type', buffer', [])) :
    ∀ c ∈ input, 0x20 ≤ c.toNat := by
  induction input generalizing state type buffer with
  | nil => simp
  | cons c input ih =>
    rw [scanNumberLoop] at h
    cases hnext : state.next c with
    | some state' =>
      rw [hnext] at h
      exact List.forall_mem_cons.mpr ⟨ge_of_next hnext, ih h⟩
    | none =>
      rw [hnext] at h
      simp only at h
      split_ifs at h
      cases h

/-- There is no control character in a number. -/
theorem ReadsNumber.ge {text : Bytes} (h : ReadsNumber strtod text token)
    (htoken : token ≠ .parseError) : ∀ c ∈ text, 0x20 ≤ c.toNat := by
  obtain ⟨c, rest, rfl, hc, hscan⟩ := h
  refine List.forall_mem_cons.mpr ⟨?_, ?_⟩
  · rcases hc with rfl | hc
    · decide
    · exact ge_of_isDigit hc
  · rw [scanNumber] at hscan
    split at hscan
    · rename_i type buffer input hloop
      obtain ⟨-, rfl⟩ := Prod.mk.inj hscan
      exact ge_of_scanNumberLoop hloop
    · exact absurd (Prod.mk.inj hscan).1.symm htoken

/-! ### Decimal numbers -/

theorem toNat_digit {d : ℕ} (h : d < 10) : (0x30 + d).toUInt8.toNat = 0x30 + d :=
  UInt8.toNat_ofNat_of_lt' (show 0x30 + d < 256 by omega)

theorem isDigit_digit {d : ℕ} (h : d < 10) : isDigit (0x30 + d).toUInt8 = true := by
  simp only [isDigit, Bool.and_eq_true, decide_eq_true_eq, UInt8.le_iff_toNat_le, toNat_digit h]
  exact ⟨Nat.le_add_right _ _, Nat.add_le_add_left (Nat.le_of_lt_succ h) _⟩

theorem isDigit_of_mem_decimal (n : ℕ) : ∀ c ∈ decimal n, isDigit c = true := by
  induction n using Nat.strongRecOn with
  | ind n ih =>
    by_cases h : n < 10
    · rw [decimal_of_lt h]
      simpa using isDigit_digit h
    · rw [decimal_of_ge (by omega)]
      intro c hc
      rcases List.mem_append.mp hc with hc | hc
      · exact ih (n / 10) (Nat.div_lt_self (by omega) (by decide)) c hc
      · rw [List.mem_singleton.mp hc]
        exact isDigit_digit (Nat.mod_lt _ (by decide))

/-- The first digit is zero for zero only. -/
theorem decimal_eq_cons {n : ℕ} (hn : n ≠ 0) :
    ∃ c rest, decimal n = c :: rest ∧ isDigit c = true ∧ c ≠ chr '0' ∧
      ∀ d ∈ rest, isDigit d = true := by
  suffices hhead : ∃ c rest, decimal n = c :: rest ∧ c ≠ chr '0' by
    obtain ⟨c, rest, heq, hc⟩ := hhead
    have hall := isDigit_of_mem_decimal n
    rw [heq] at hall
    obtain ⟨hdigit, hrest⟩ := List.forall_mem_cons.mp hall
    exact ⟨c, rest, heq, hdigit, hc, hrest⟩
  induction n using Nat.strongRecOn with
  | ind n ih =>
    by_cases h : n < 10
    · refine ⟨_, [], decimal_of_lt h, fun heq => hn ?_⟩
      have hnat := congrArg UInt8.toNat heq
      rw [toNat_digit h] at hnat
      exact Nat.add_left_cancel (m := n) (k := 0) hnat
    · obtain ⟨c, rest, heq, hc⟩ := ih (n / 10) (Nat.div_lt_self (by omega) (by decide)) (by omega)
      exact ⟨c, _, by rw [decimal_of_ge (by omega), heq]; rfl, hc⟩

theorem decimalValue_append_digit (digits : Bytes) {d : ℕ} (h : d < 10) :
    decimalValue (digits ++ [(0x30 + d).toUInt8]) = 10 * decimalValue digits + d := by
  rw [decimalValue, List.foldl_append]
  show 10 * decimalValue digits + ((0x30 + d).toUInt8.toNat - 0x30) = _
  rw [toNat_digit h, Nat.add_sub_cancel_left]

theorem decimalValue_decimal (n : ℕ) : decimalValue (decimal n) = n := by
  induction n using Nat.strongRecOn with
  | ind n ih =>
    by_cases h : n < 10
    · rw [decimal_of_lt h, ← List.nil_append [_], decimalValue_append_digit [] h]
      show 10 * 0 + n = n
      omega
    · rw [decimal_of_ge (by omega), decimalValue_append_digit _ (Nat.mod_lt _ (by decide)),
        ih (n / 10) (Nat.div_lt_self (by omega) (by decide))]
      omega

/-- Digits only lead from such a label to itself. -/
theorem scanNumberLoop_digits {state : NumberState}
    (hstate : state = .any1 ∨ state = .decimal2 ∨ state = .any2) (type : NumberType) {digits : Bytes}
    (h : ∀ c ∈ digits, isDigit c = true) (buffer input : Bytes) :
    scanNumberLoop state type buffer (digits ++ input)
      = scanNumberLoop state type (buffer ++ digits) input := by
  induction digits generalizing buffer with
  | nil => rw [List.append_nil, List.nil_append]
  | cons c digits ih =>
    obtain ⟨hc, hdigits⟩ := List.forall_mem_cons.mp h
    have hnext : NumberState.next c state = some state := by
      rcases hstate with rfl | rfl | rfl <;> exact if_pos hc
    have htype : state.numberType type = type := by
      rcases hstate with rfl | rfl | rfl <;> rfl
    rw [List.cons_append, scanNumberLoop, hnext]
    simp only
    rw [htype, ih hdigits, List.append_assoc, List.singleton_append]

/-- An integer ends with its digits. -/
theorem scanNumberLoop_integer (type : NumberType) {digits : Bytes}
    (h : ∀ c ∈ digits, isDigit c = true) (buffer : Bytes) :
    scanNumberLoop .any1 type buffer digits = some (type, buffer ++ digits, []) := by
  have hloop := scanNumberLoop_digits (.inl rfl) type h buffer []
  rwa [List.append_nil] at hloop

theorem chr_minus_of_isDigit {c : UInt8} (h : isDigit c = true) : c ≠ chr '-' := by
  rintro rfl
  cases h

/-- **An unsigned number of 64 bits is read back.** -/
theorem readsNumber_decimal (strtod : Bytes → UInt64) (u : UInt64) :
    ReadsNumber strtod (decimal u.toNat) (.valueUnsigned u) := by
  by_cases hu : u.toNat = 0
  · obtain rfl : u = 0 := UInt64.toNat_inj.mp hu
    exact ⟨chr '0', [], rfl, .inr rfl, rfl⟩
  · obtain ⟨c, rest, heq, hc, hzero, hrest⟩ := decimal_eq_cons hu
    refine ⟨c, rest, heq, .inr hc, ?_⟩
    rw [scanNumber, if_neg (chr_minus_of_isDigit hc), if_neg hzero]
    simp only [NumberState.numberType, scanNumberLoop_integer .unsigned hrest, List.singleton_append]
    rw [← heq, convertNumber]
    simp only [decimalValue_decimal, if_pos u.toNat_lt, UInt64.ofNat_toNat]

/-- **A negative number of 64 bits is read back.** -/
theorem readsNumber_negative (strtod : Bytes → UInt64) {i : Int64} (hi : i < 0) :
    ReadsNumber strtod (chr '-' :: decimal i.toInt.natAbs) (.valueInteger i) := by
  have hneg : i.toInt < 0 := Int64.lt_iff_toInt_lt.mp hi
  obtain ⟨c, rest, heq, hc, hzero, hrest⟩ := decimal_eq_cons (n := i.toInt.natAbs) (by omega)
  have hvalue : -((i.toInt.natAbs : ℕ) : ℤ) = i.toInt := by omega
  refine ⟨chr '-', _, rfl, .inl rfl, ?_⟩
  have hnext : NumberState.next c .minus = some .any1 := by
    rw [NumberState.next, if_neg hzero, if_pos hc]
  rw [heq, scanNumber]
  simp only [if_true, NumberState.numberType]
  rw [scanNumberLoop, hnext]
  simp only [NumberState.numberType, scanNumberLoop_integer .integer hrest, List.cons_append,
    List.nil_append]
  rw [← heq, convertNumber]
  simp only [List.tail_cons, decimalValue_decimal, hvalue]
  rw [if_pos i.le_toInt, Int64.ofInt_toInt]

/-- **Integers are written in decimal and read back**, with the buffer and all 64 bits;
a signed one that is not negative as an unsigned one. -/
theorem integers_read_back (strtod : Bytes → UInt64) (i : Int64) (u : UInt64) :
    (Serializer.dumpSigned i = .ok (ascii (toString i.toInt)) ∧
      Lexer.scan strtod (ascii (toString i.toInt))
        = (if i < 0 then .valueInteger i else .valueUnsigned i.toUInt64, [])) ∧
    Serializer.dumpUnsigned u = .ok (ascii (toString u.toNat)) ∧
      Lexer.scan strtod (ascii (toString u.toNat)) = (.valueUnsigned u, []) := by
  have hunsigned (u : UInt64) :
      Lexer.scan strtod (ascii (toString u.toNat)) = (.valueUnsigned u, []) := by
    have hscan := (readsNumber_decimal strtod u).scan (by simp) delimited_nil
    rwa [List.append_nil, ← Serializer.ascii_toString] at hscan
  refine ⟨⟨Serializer.dumpSigned_eq i, ?_⟩, Serializer.dumpUnsigned_eq u, hunsigned u⟩
  split_ifs with hi
  · have hscan := (readsNumber_negative strtod hi).scan (by simp) delimited_nil
    rwa [List.append_nil, ← Serializer.ascii_toString_of_neg (Int64.lt_iff_toInt_lt.mp hi)]
      at hscan
  · rw [← Serializer.toNat_toUInt64_of_nonneg hi]
    exact hunsigned i.toUInt64

end Lexer

end MaelstromCpp
