import Mathlib.Data.String.Basic

namespace ValueContract.Text

variable {a b lead lead' length length' n : Nat} {rest more : List UInt8}

def bytes (text : String) : List UInt8 := text.toUTF8.data.toList

/-- A number as a marked byte and `length` bytes of six bits after it. -/
def digits (lead : Nat) : Nat → Nat → List UInt8
  | 0, n => [UInt8.ofNat (lead + n)]
  | length + 1, n => digits lead length (n / 64) ++ [UInt8.ofNat (n % 64 + 0x80)]

def firstDigit (lead : Nat) : Nat → Nat → Nat
  | 0, n => lead + n
  | length + 1, n => firstDigit lead length (n / 64)

/-- The mark and the length that go with a number. The mark grows with the length, so it decides
between characters of different lengths. -/
inductive Marked : Nat → Nat → Nat → Prop
  | one {n : Nat} (h : n < 0x80) : Marked 0 0 n
  | two {n : Nat} (h : 0x80 ≤ n ∧ n < 0x800) : Marked 0xc0 1 n
  | three {n : Nat} (h : 0x800 ≤ n ∧ n < 0x10000) : Marked 0xe0 2 n
  | four {n : Nat} (h : 0x10000 ≤ n ∧ n < 0x110000) : Marked 0xf0 3 n

theorem ofNat_cons_lt (h : a < b) (hb : b < 256) :
    UInt8.ofNat a :: rest < UInt8.ofNat b :: more := by
  apply List.cons_lt_cons_iff.2
  left
  rw [UInt8.lt_iff_toNat_lt, UInt8.toNat_ofNat', UInt8.toNat_ofNat']
  omega

theorem exists_digits_eq_cons (lead length n : Nat) :
    ∃ tail, digits lead length n = UInt8.ofNat (firstDigit lead length n) :: tail := by
  induction length generalizing n with
  | zero => exact ⟨[], rfl⟩
  | succ length ih =>
    obtain ⟨tail, htail⟩ := ih (n / 64)
    refine ⟨tail ++ [UInt8.ofNat (n % 64 + 0x80)], ?_⟩
    rw [digits, htail, firstDigit, List.cons_append]

theorem digits_append_lt (length : Nat) (h : a < b) (hb : firstDigit lead length b < 256) :
    digits lead length a ++ rest < digits lead length b ++ more := by
  induction length generalizing a b rest more with
  | zero => exact ofNat_cons_lt (Nat.add_lt_add_left h lead) hb
  | succ length ih =>
    simp only [digits, List.append_assoc, List.singleton_append]
    by_cases hhigh : a / 64 = b / 64
    · rw [hhigh]
      apply List.append_left_lt
      apply ofNat_cons_lt <;> omega
    · exact ih (by omega) hb

theorem Marked.append_lt (ha : Marked lead length a) (hb : Marked lead' length' b) (h : a < b) :
    digits lead length a ++ rest < digits lead' length' b ++ more := by
  have hbound : firstDigit lead' length' b < 256 := by
    cases hb <;> simp only [firstDigit] <;> omega
  have hfirst : (lead = lead' ∧ length = length') ∨
      firstDigit lead length a < firstDigit lead' length' b := by
    cases ha <;> cases hb <;> simp only [firstDigit, eq_self, and_self, true_or] <;> omega
  rcases hfirst with ⟨rfl, rfl⟩ | hless
  · exact digits_append_lt length h hbound
  · obtain ⟨tail, htail⟩ := exists_digits_eq_cons lead length a
    obtain ⟨tail', htail'⟩ := exists_digits_eq_cons lead' length' b
    rw [htail, htail', List.cons_append, List.cons_append]
    exact ofNat_cons_lt hless hbound

theorem toNat_lt (char : Char) : char.toNat < 0x110000 := by
  have hvalid : char.toNat < 0xd800 ∨ (0xdfff < char.toNat ∧ char.toNat < 0x110000) := char.valid
  omega

theorem exists_marked (char : Char) : ∃ lead length, Marked lead length char.toNat ∧
    String.utf8EncodeChar char = digits lead length char.toNat := by
  have hencode : String.utf8EncodeChar char =
      if char.toNat ≤ 0x7f then [UInt8.ofNat char.toNat]
      else if char.toNat ≤ 0x7ff then
        [UInt8.ofNat (char.toNat / 64 % 0x20 + 0xc0), UInt8.ofNat (char.toNat % 0x40 + 0x80)]
      else if char.toNat ≤ 0xffff then
        [UInt8.ofNat (char.toNat / 4096 % 0x10 + 0xe0),
          UInt8.ofNat (char.toNat / 64 % 0x40 + 0x80), UInt8.ofNat (char.toNat % 0x40 + 0x80)]
      else
        [UInt8.ofNat (char.toNat / 262144 % 0x08 + 0xf0),
          UInt8.ofNat (char.toNat / 4096 % 0x40 + 0x80),
          UInt8.ofNat (char.toNat / 64 % 0x40 + 0x80), UInt8.ofNat (char.toNat % 0x40 + 0x80)] :=
    rfl
  have hlt := toNat_lt char
  generalize char.toNat = n at *
  split at hencode
  · refine ⟨0, 0, .one (by omega), ?_⟩
    simp only [hencode, digits, Nat.zero_add]
  · split at hencode
    · refine ⟨0xc0, 1, .two (by omega), ?_⟩
      have hhigh : n / 64 % 0x20 + 0xc0 = 0xc0 + n / 64 := by omega
      simp only [hencode, hhigh, digits, List.singleton_append]
    · split at hencode
      · refine ⟨0xe0, 2, .three (by omega), ?_⟩
        have hhigh : n / 4096 % 0x10 + 0xe0 = 0xe0 + n / 64 / 64 := by omega
        simp only [hencode, hhigh, digits, List.cons_append, List.nil_append]
      · refine ⟨0xf0, 3, .four (by omega), ?_⟩
        have hhigh : n / 262144 % 0x08 + 0xf0 = 0xf0 + n / 64 / 64 / 64 := by omega
        have hmiddle : n / 4096 = n / 64 / 64 := by omega
        simp only [hencode, hhigh, hmiddle, digits, List.cons_append, List.nil_append]

theorem encode_lt_encode {chars chars' : List Char} (h : chars < chars') :
    chars.flatMap String.utf8EncodeChar < chars'.flatMap String.utf8EncodeChar := by
  induction chars generalizing chars' with
  | nil =>
    cases chars' with
    | nil => exact absurd h (List.lt_irrefl _)
    | cons char chars' =>
      obtain ⟨lead, length, -, hdigits⟩ := exists_marked char
      obtain ⟨tail, htail⟩ := exists_digits_eq_cons lead length char.toNat
      rw [List.flatMap_cons, hdigits, htail]
      exact List.nil_lt_cons _ _
  | cons char chars ih =>
    cases chars' with
    | nil => exact absurd h (List.not_lt_nil _)
    | cons char' chars' =>
      rw [List.flatMap_cons, List.flatMap_cons]
      rcases List.cons_lt_cons_iff.1 h with hlt | ⟨rfl, hlt⟩
      · obtain ⟨lead, length, hmarked, hdigits⟩ := exists_marked char
        obtain ⟨lead', length', hmarked', hdigits'⟩ := exists_marked char'
        rw [hdigits, hdigits']
        exact hmarked.append_lt hmarked' hlt
      · exact List.append_left_lt (ih hlt)

theorem bytes_eq (text : String) : bytes text = text.toList.flatMap String.utf8EncodeChar := by
  have hencode : text.toList.utf8Encode =
      (text.toList.flatMap String.utf8EncodeChar).toByteArray := rfl
  rw [bytes, String.toUTF8_eq_toByteArray, ← String.utf8Encode_toList, hencode]
  simp

theorem bytes_lt_bytes {text text' : String} (h : text < text') : bytes text < bytes text' := by
  rw [bytes_eq, bytes_eq]
  exact encode_lt_encode h

end ValueContract.Text
