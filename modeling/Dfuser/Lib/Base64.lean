import Mathlib.Data.List.Nodup
import Dfuser.Lib.Text

/-!
# Base 64

The encoding of bytes by the 64 characters `A`–`Z`, `a`–`z`, `0`–`9`, `+` and `/`: three
bytes become four characters, and a last group of one or two bytes is filled up with `=`.
The command `base64` breaks its output into lines of 76 characters; `base64 -d` does not
mind the newlines, and stops at the first group of four that is none.

## Main definitions

* `Base64.encode`, `Base64.decode` — one group after the other.
* `utf8`, `base64`, `base64d` — the bytes of a text, and the command and its inverse.

## Main results

* `Base64.decode_encode` — **decoding undoes encoding.**
* `Base64.mem_alphabet_of_mem_encode` — which characters an encoding has.
* `base64_of_length_le` — up to 57 bytes there is one line.
-/

namespace Dfuser
namespace Base64

/-- The characters, in the order of the values they stand for. -/
def alphabet : Str := "ABCDEFGHIJKLMNOPQRSTUVWXYZabcdefghijklmnopqrstuvwxyz0123456789+/".toList

/-- The character for a value. -/
def digit (n : ℕ) : Char := alphabet.getD n '='

/-- The value a character stands for. -/
def value? (c : Char) : Option ℕ := if c ∈ alphabet then some (alphabet.idxOf c) else none

/-- The groups of four characters for bytes. -/
def encode : List UInt8 → Str
  | [] => []
  | [a] => [digit (a.toNat / 4), digit (a.toNat % 4 * 16), '=', '=']
  | [a, b] =>
    [digit (a.toNat / 4), digit (a.toNat % 4 * 16 + b.toNat / 16), digit (b.toNat % 16 * 4), '=']
  | a :: b :: c :: bytes =>
    digit (a.toNat / 4) :: digit (a.toNat % 4 * 16 + b.toNat / 16) ::
      digit (b.toNat % 16 * 4 + c.toNat / 64) :: digit (c.toNat % 64) :: encode bytes

/-- The bytes that groups of four characters stand for, up to the first that is none. -/
def decode : Str → List UInt8
  | w :: x :: y :: z :: s =>
    match value? w, value? x with
    | some a, some b =>
      if y = '=' ∧ z = '=' then [UInt8.ofNat (a * 4 + b / 16)]
      else
        match value? y with
        | none => []
        | some c =>
          if z = '=' then [UInt8.ofNat (a * 4 + b / 16), UInt8.ofNat (b % 16 * 16 + c / 4)]
          else
            match value? z with
            | none => []
            | some d =>
              UInt8.ofNat (a * 4 + b / 16) :: UInt8.ofNat (b % 16 * 16 + c / 4) ::
                UInt8.ofNat (c % 4 * 64 + d) :: decode s
    | _, _ => []
  | _ => []

/-! ### Decoding undoes encoding -/

theorem length_alphabet : alphabet.length = 64 := by decide +kernel

theorem digit_eq {n : ℕ} (h : n < 64) :
    digit n = alphabet.get ⟨n, by rw [length_alphabet]; exact h⟩ := by
  have hlt : n < alphabet.length := by rw [length_alphabet]; exact h
  simp [digit, List.getElem?_eq_getElem hlt]

theorem digit_mem {n : ℕ} (h : n < 64) : digit n ∈ alphabet := by
  rw [digit_eq h]
  exact List.get_mem _ _

/-- A character stands for its value. -/
theorem value?_digit {n : ℕ} (h : n < 64) : value? (digit n) = some n := by
  have hnodup : alphabet.Nodup := by decide +kernel
  rw [value?, if_pos (digit_mem h), digit_eq h]
  exact congrArg some (List.get_idxOf hnodup _)

theorem digit_ne {n : ℕ} (h : n < 64) : digit n ≠ '=' := by
  intro heq
  have hmem := digit_mem h
  rw [heq] at hmem
  revert hmem
  decide +kernel

/-- A whole group of three bytes. -/
theorem decode_group {a b c d : ℕ} (ha : a < 64) (hb : b < 64) (hc : c < 64) (hd : d < 64)
    (s : Str) : decode (digit a :: digit b :: digit c :: digit d :: s) =
      UInt8.ofNat (a * 4 + b / 16) :: UInt8.ofNat (b % 16 * 16 + c / 4) ::
        UInt8.ofNat (c % 4 * 64 + d) :: decode s := by
  rw [decode]
  simp only [value?_digit ha, value?_digit hb, value?_digit hc, value?_digit hd, digit_ne hc,
    digit_ne hd, false_and, if_false]

/-- **Decoding undoes encoding.** -/
theorem decode_encode (bytes : List UInt8) : decode (encode bytes) = bytes := by
  have hbyte : ∀ (a : UInt8) (n : ℕ), n = a.toNat → UInt8.ofNat n = a := by
    intro a n hn
    rw [hn, UInt8.ofNat_toNat]
  induction bytes using encode.induct with
  | case1 => rfl
  | case2 a =>
    have ha := a.toNat_lt
    rw [encode, decode]
    simp only [value?_digit (show a.toNat / 4 < 64 by omega),
      value?_digit (show a.toNat % 4 * 16 < 64 by omega), and_self, if_true]
    rw [hbyte a _ (by omega)]
  | case3 a b =>
    have ha := a.toNat_lt
    have hb := b.toNat_lt
    rw [encode, decode]
    simp only [value?_digit (show a.toNat / 4 < 64 by omega),
      value?_digit (show a.toNat % 4 * 16 + b.toNat / 16 < 64 by omega),
      value?_digit (show b.toNat % 16 * 4 < 64 by omega),
      digit_ne (show b.toNat % 16 * 4 < 64 by omega), false_and, if_true, if_false]
    rw [hbyte a _ (by omega), hbyte b _ (by omega)]
  | case4 a b c bytes ih =>
    have ha := a.toNat_lt
    have hb := b.toNat_lt
    have hc := c.toNat_lt
    rw [encode, decode_group (by omega) (by omega) (by omega) (by omega), ih,
      hbyte a _ (by omega), hbyte b _ (by omega), hbyte c _ (by omega)]

/-- The characters of an encoding. -/
theorem mem_alphabet_of_mem_encode {bytes : List UInt8} {c : Char} (h : c ∈ encode bytes) :
    c ∈ alphabet ∨ c = '=' := by
  induction bytes using encode.induct with
  | case1 => cases h
  | case2 a =>
    have ha := a.toNat_lt
    simp only [encode, List.mem_cons, List.not_mem_nil, or_false] at h
    rcases h with rfl | rfl | rfl | rfl
    · exact .inl (digit_mem (by omega))
    · exact .inl (digit_mem (by omega))
    · exact .inr rfl
    · exact .inr rfl
  | case3 a b =>
    have ha := a.toNat_lt
    have hb := b.toNat_lt
    simp only [encode, List.mem_cons, List.not_mem_nil, or_false] at h
    rcases h with rfl | rfl | rfl | rfl
    · exact .inl (digit_mem (by omega))
    · exact .inl (digit_mem (by omega))
    · exact .inl (digit_mem (by omega))
    · exact .inr rfl
  | case4 a b c' bytes ih =>
    have ha := a.toNat_lt
    have hb := b.toNat_lt
    have hc := c'.toNat_lt
    simp only [encode, List.mem_cons] at h
    rcases h with rfl | rfl | rfl | rfl | h
    · exact .inl (digit_mem (by omega))
    · exact .inl (digit_mem (by omega))
    · exact .inl (digit_mem (by omega))
    · exact .inl (digit_mem (by omega))
    · exact ih h

theorem length_encode (bytes : List UInt8) :
    (encode bytes).length = (bytes.length + 2) / 3 * 4 := by
  induction bytes using encode.induct with
  | case1 => rfl
  | case2 a => simp [encode]
  | case3 a b => simp [encode]
  | case4 a b c bytes ih =>
    simp only [encode, List.length_cons, ih]
    omega

theorem encode_ne_nil {bytes : List UInt8} (h : bytes ≠ []) : encode bytes ≠ [] := by
  intro hnil
  have hlen := length_encode bytes
  have hpos := List.length_pos_iff.mpr h
  rw [hnil, List.length_nil] at hlen
  omega

/-- What holds of the characters and of `=` holds of every character of an encoding. -/
theorem forall_mem_encode {P : Char → Bool} (h : ('=' :: alphabet).all P = true)
    (bytes : List UInt8) : ∀ c ∈ encode bytes, P c = true := by
  intro c hc
  rw [List.all_cons, Bool.and_eq_true, List.all_eq_true] at h
  rcases mem_alphabet_of_mem_encode hc with hc | rfl
  · exact h.2 c hc
  · exact h.1

theorem notMem_encode {c : Char} (h : c ∉ '=' :: alphabet) (bytes : List UInt8) :
    c ∉ encode bytes := by
  intro hc
  apply h
  rcases mem_alphabet_of_mem_encode hc with hc | rfl
  · exact List.mem_cons_of_mem _ hc
  · exact List.mem_cons_self

end Base64

/-! ### The command -/

/-- The bytes of a text. -/
def utf8 (s : Str) : List UInt8 := s.flatMap String.utf8EncodeChar

/-- The lines of a text broken after every 76 characters.  Each line takes some of them,
so the length is enough fuel. -/
def brokenLines : ℕ → Str → List Str
  | 0, _ => []
  | _ + 1, [] => []
  | n + 1, s => s.take 76 :: brokenLines n (s.drop 76)

/-- What `base64` prints. -/
def base64 (bytes : List UInt8) : Str :=
  (brokenLines (Base64.encode bytes).length (Base64.encode bytes)).flatMap (· ++ ['\n'])

/-- What `base64 -d` prints. -/
def base64d (s : Str) : List UInt8 := Base64.decode (s.filter (· ≠ '\n'))

/-- Up to 57 bytes there is one line. -/
theorem base64_of_length_le {bytes : List UInt8} (hne : bytes ≠ []) (hlen : bytes.length ≤ 57) :
    base64 bytes = Base64.encode bytes ++ ['\n'] := by
  have hshort : (Base64.encode bytes).length ≤ 76 := by
    rw [Base64.length_encode]
    omega
  unfold base64
  cases henc : Base64.encode bytes with
  | nil => exact absurd henc (Base64.encode_ne_nil hne)
  | cons c s =>
    rw [henc] at hshort
    have hrest : ∀ n, brokenLines n [] = [] := by
      intro n
      cases n <;> rfl
    rw [List.length_cons, brokenLines, List.take_of_length_le hshort, List.drop_of_length_le hshort,
      hrest, List.flatMap_singleton]
    simp

theorem base64d_encode (bytes : List UInt8) : base64d (Base64.encode bytes) = bytes := by
  have hnone : ∀ c ∈ Base64.encode bytes, decide (c ≠ '\n') = true :=
    Base64.forall_mem_encode (by decide +kernel) bytes
  rw [base64d, List.filter_eq_self.mpr hnone, Base64.decode_encode]

end Dfuser
