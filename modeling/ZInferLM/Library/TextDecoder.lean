import ZInferLM.Library.Utf8

/-! # Decoding a text that arrives in fragments

The decoder reads one byte after the other and keeps the character that is not complete yet, so a
fragment may end anywhere. A byte that does not go on with the character is read again as a first
byte, behind a replacement character. A byte order mark at the beginning of the text is dropped. -/

namespace ZInferLM.Library
open Utf8

/-- A character that is not complete: its bits so far, the number of its other bytes, and the bounds
of the next one. -/
structure Utf8Decoder where
  codePoint : ℕ
  bytesNeeded : ℕ
  lowerBoundary : ℕ
  upperBoundary : ℕ
  deriving DecidableEq

namespace Utf8Decoder

def start : Utf8Decoder := ⟨0, 0, 0x80, 0xBF⟩

def replacement : Char := Char.ofNat 0xFFFD

def first (n : ℕ) : Utf8Decoder × List Char :=
  if n ≤ 0x7F then (start, [Char.ofNat n])
  else if 0xC2 ≤ n ∧ n ≤ 0xDF then (⟨n % 32, 1, 0x80, 0xBF⟩, [])
  else if 0xE0 ≤ n ∧ n ≤ 0xEF then
    (⟨n % 16, 2, if n = 0xE0 then 0xA0 else 0x80, if n = 0xED then 0x9F else 0xBF⟩, [])
  else if 0xF0 ≤ n ∧ n ≤ 0xF4 then
    (⟨n % 8, 3, if n = 0xF0 then 0x90 else 0x80, if n = 0xF4 then 0x8F else 0xBF⟩, [])
  else (start, [replacement])

def next (d : Utf8Decoder) (n : ℕ) : Utf8Decoder × List Char :=
  if d.bytesNeeded = 0 then first n
  else if n < d.lowerBoundary ∨ d.upperBoundary < n then ((first n).1, replacement :: (first n).2)
  else if d.bytesNeeded = 1 then (start, [Char.ofNat (d.codePoint * 64 + n % 64)])
  else (⟨d.codePoint * 64 + n % 64, d.bytesNeeded - 1, 0x80, 0xBF⟩, [])

/-- The decoder behind a fragment, and the characters that got complete. -/
def feed (d : Utf8Decoder) : Bytes → Utf8Decoder × List Char
  | [] => (d, [])
  | b :: bs =>
    let r := d.next b.toNat
    let rest := feed r.1 bs
    (rest.1, r.2 ++ rest.2)

/-- Two fragments are decoded like one. -/
theorem feed_append (d : Utf8Decoder) (a b : Bytes) :
    d.feed (a ++ b) = (((d.feed a).1.feed b).1, (d.feed a).2 ++ ((d.feed a).1.feed b).2) := by
  induction a generalizing d with
  | nil => rfl
  | cons x a ih =>
    rw [List.cons_append, feed, ih, feed]
    simp only [List.append_assoc]

theorem next_more {codePoint bytesNeeded lower upper n : ℕ} (hl : lower ≤ n) (hu : n ≤ upper) :
    next ⟨codePoint, bytesNeeded + 2, lower, upper⟩ n =
      (⟨codePoint * 64 + n % 64, bytesNeeded + 1, 0x80, 0xBF⟩, []) := by
  simp only [next]
  rw [if_neg (by omega), if_neg (by omega), if_neg (by omega)]
  rfl

theorem next_last {codePoint lower upper n : ℕ} (hl : lower ≤ n) (hu : n ≤ upper) :
    next ⟨codePoint, 1, lower, upper⟩ n = (start, [Char.ofNat (codePoint * 64 + n % 64)]) := by
  simp only [next]
  rw [if_neg (by omega), if_neg (by omega), if_pos trivial]

theorem first_two {n : ℕ} (hl : 0xC2 ≤ n) (hu : n ≤ 0xDF) :
    first n = (⟨n % 32, 1, 0x80, 0xBF⟩, []) := by
  rw [first, if_neg (by omega), if_pos ⟨hl, hu⟩]

theorem first_three {n : ℕ} (hl : 0xE0 ≤ n) (hu : n ≤ 0xEF) :
    first n =
      (⟨n % 16, 2, if n = 0xE0 then 0xA0 else 0x80, if n = 0xED then 0x9F else 0xBF⟩, []) := by
  rw [first, if_neg (by omega), if_neg (by omega), if_pos ⟨hl, hu⟩]

theorem first_four {n : ℕ} (hl : 0xF0 ≤ n) (hu : n ≤ 0xF4) :
    first n =
      (⟨n % 8, 3, if n = 0xF0 then 0x90 else 0x80, if n = 0xF4 then 0x8F else 0xBF⟩, []) := by
  rw [first, if_neg (by omega), if_neg (by omega), if_neg (by omega), if_pos ⟨hl, hu⟩]

theorem feed_encodeChar (c : Char) : start.feed (String.utf8EncodeChar c) = (start, [c]) := by
  have hvalid : c.val.toNat < 55296 ∨ 57343 < c.val.toNat ∧ c.val.toNat < 1114112 := c.valid
  have hchar : Char.ofNat c.val.toNat = c := Char.ofNat_toNat c
  have hstart : ∀ n, start.next n = first n := fun n => if_pos rfl
  rw [String.utf8EncodeChar]
  generalize c.val.toNat = v at hvalid hchar ⊢
  have hlast : (UInt8.ofNat (v % 64 + 128)).toNat = v % 64 + 128 := by
    rw [UInt8.toNat_ofNat']
    omega
  have hmiddle : (UInt8.ofNat (v / 64 % 64 + 128)).toNat = v / 64 % 64 + 128 := by
    rw [UInt8.toNat_ofNat']
    omega
  -- the cases are the lengths of the encoding; the bits of its bytes are those of the character
  split_ifs with h1 h2 h3
  · have hv : (UInt8.ofNat v).toNat = v := by
      rw [UInt8.toNat_ofNat']
      omega
    simp only [feed, hv, hstart]
    rw [first, if_pos h1, hchar]
    rfl
  · have hv : (UInt8.ofNat (v / 64 % 32 + 192)).toNat = v / 64 + 192 := by
      rw [UInt8.toNat_ofNat']
      omega
    have hbits : (v / 64 + 192) % 32 * 64 + (v % 64 + 128) % 64 = v := by omega
    simp only [feed, hv, hlast, hstart]
    rw [first_two (by omega) (by omega), next_last (by omega) (by omega), hbits, hchar]
    rfl
  · have hv : (UInt8.ofNat (v / 4096 % 16 + 224)).toNat = v / 4096 + 224 := by
      rw [UInt8.toNat_ofNat']
      omega
    have hbits : ((v / 4096 + 224) % 16 * 64 + (v / 64 % 64 + 128) % 64) * 64 +
        (v % 64 + 128) % 64 = v := by omega
    simp only [feed, hv, hmiddle, hlast, hstart]
    rw [first_three (by omega) (by omega), next_more (by split_ifs <;> omega)
      (by split_ifs <;> omega), next_last (by omega) (by omega), hbits, hchar]
    rfl
  · have hv : (UInt8.ofNat (v / 262144 % 8 + 240)).toNat = v / 262144 + 240 := by
      rw [UInt8.toNat_ofNat']
      omega
    have hsecond : (UInt8.ofNat (v / 4096 % 64 + 128)).toNat = v / 4096 % 64 + 128 := by
      rw [UInt8.toNat_ofNat']
      omega
    have hbits : (((v / 262144 + 240) % 8 * 64 + (v / 4096 % 64 + 128) % 64) * 64 +
        (v / 64 % 64 + 128) % 64) * 64 + (v % 64 + 128) % 64 = v := by omega
    simp only [feed, hv, hsecond, hmiddle, hlast, hstart]
    rw [first_four (by omega) (by omega), next_more (by split_ifs <;> omega)
      (by split_ifs <;> omega), next_more (by omega) (by omega), next_last (by omega) (by omega),
      hbits, hchar]
    rfl

theorem feed_encode (cs : List Char) : start.feed (encode cs) = (start, cs) := by
  induction cs with
  | nil => rfl
  | cons c cs ih =>
    rw [encode_cons, feed_append, feed_encodeChar, ih]
    rfl

end Utf8Decoder

/-- The decoder of a stream, which looks for a byte order mark first. -/
structure TextDecoder where
  utf8 : Utf8Decoder
  bomSeen : Bool
  deriving DecidableEq

namespace TextDecoder

def new : TextDecoder := ⟨.start, false⟩

def byteOrderMark : Char := Char.ofNat 0xFEFF

def decode (d : TextDecoder) (fragment : Bytes) : TextDecoder × List Char :=
  let r := d.utf8.feed fragment
  if d.bomSeen then (⟨r.1, true⟩, r.2)
  else match r.2 with
    | [] => (⟨r.1, false⟩, [])
    | c :: cs => (⟨r.1, true⟩, if c = byteOrderMark then cs else c :: cs)

/-- What the decoder still has to give back is this text. -/
def Awaits (d : TextDecoder) (bytes : Bytes) (text : List Char) : Prop :=
  (d.utf8.feed bytes).2 = text ∧ (d.bomSeen = true ∨ text.head? ≠ some byteOrderMark)

/-- A text without a mark is awaited at the beginning. -/
theorem new_awaits {cs : List Char} (h : cs.head? ≠ some byteOrderMark) :
    new.Awaits (encode cs) cs := by
  refine ⟨?_, .inr h⟩
  rw [new, Utf8Decoder.feed_encode]

theorem Awaits.nil {d : TextDecoder} {text : List Char} (h : d.Awaits [] text) : text = [] :=
  h.1.symm

/-- A fragment gives a part of the text, and the rest is awaited behind it. -/
theorem Awaits.decode {d : TextDecoder} {fragment rest : Bytes} {text : List Char}
    (h : d.Awaits (fragment ++ rest) text) :
    ∃ text', (d.decode fragment).2 ++ text' = text ∧ (d.decode fragment).1.Awaits rest text' := by
  obtain ⟨htext, hmark⟩ := h
  rw [Utf8Decoder.feed_append] at htext
  refine ⟨((d.utf8.feed fragment).1.feed rest).2, ?_⟩
  by_cases hseen : d.bomSeen = true
  · simp only [TextDecoder.decode, hseen, if_true]
    exact ⟨htext, rfl, .inl rfl⟩
  · have hhead := hmark.resolve_left hseen
    simp only [TextDecoder.decode, hseen]
    cases hpart : (d.utf8.feed fragment).2 with
    | nil =>
      rw [hpart, List.nil_append] at htext
      exact ⟨htext, rfl, .inr (by rwa [htext])⟩
    | cons c cs =>
      rw [hpart] at htext
      have hc : c ≠ byteOrderMark := by
        intro hc
        rw [← htext, List.cons_append, List.head?_cons, hc] at hhead
        exact hhead rfl
      simp only [if_neg hc]
      exact ⟨htext, rfl, .inl rfl⟩

end TextDecoder

end ZInferLM.Library
