import Mathlib.Data.List.Infix
import Mathlib.Data.List.TakeWhile
import Mathlib.Data.Nat.Digits.Defs
import ZInferLM.Library.Utf8

/-! # The chunked transfer coding

A text is sent in chunks, each behind its length in hexadecimal digits, and an empty chunk ends it.
The reader gives back the text and what follows it on the connection. Lines end at the first place
where their separator stands. -/

namespace ZInferLM.Library

universe u
variable {α : Type u}

/-- What stands before the first separator, and what behind it. -/
def cutFirst [DecidableEq α] (sep : List α) : List α → Option (List α × List α)
  | [] => none
  | x :: xs =>
    if sep <+: x :: xs then some ([], (x :: xs).drop sep.length)
    else (cutFirst sep xs).map fun r => (x :: r.1, r.2)

/-- A separator behind elements that are not its first one is where the list is cut. -/
theorem cutFirst_append [DecidableEq α] {a : α} {part : List α} (h : a ∉ part) (sep rest : List α) :
    cutFirst (a :: sep) (part ++ a :: sep ++ rest) = some (part, rest) := by
  induction part with
  | nil =>
    have hahead : a :: sep <+: a :: (sep ++ rest) := List.prefix_append (a :: sep) rest
    rw [List.nil_append, List.cons_append, cutFirst, if_pos hahead, ← List.cons_append,
      List.drop_left]
  | cons x part ih =>
    obtain ⟨hx, hpart⟩ := not_or.mp (List.mem_cons.not.mp h)
    have hahead : ¬ a :: sep <+: x :: (part ++ a :: sep ++ rest) := by
      intro hp
      exact hx (List.cons_prefix_cons.mp hp).1
    rw [List.cons_append, List.cons_append, cutFirst, if_neg hahead, ih hpart]
    rfl

theorem cutFirst_eq_none [DecidableEq α] {sep xs : List α} (h : ¬ sep <:+: xs) :
    cutFirst sep xs = none := by
  induction xs with
  | nil => rfl
  | cons x xs ih =>
    rw [List.infix_cons_iff, not_or] at h
    rw [cutFirst, if_neg h.1, ih h.2]
    rfl

/-- Two places of an element, of which the first is its first one. -/
theorem append_cons_cases {x : α} {a b r s : List α} (ha : x ∉ a) (h : a ++ x :: r = b ++ x :: s) :
    a = b ∧ r = s ∨ ∃ c, b = a ++ x :: c ∧ r = c ++ x :: s := by
  rcases List.append_eq_append_iff.mp h with ⟨t, rfl, ht⟩ | ⟨t, rfl, ht⟩
  · cases t with
    | nil => exact .inl ⟨(List.append_nil a).symm, (List.cons.inj ht).2⟩
    | cons y t =>
      obtain ⟨rfl, hrest⟩ := List.cons.inj ht
      exact .inr ⟨t, rfl, hrest⟩
  · cases t with
    | nil => exact .inl ⟨List.append_nil b, (List.cons.inj ht).2.symm⟩
    | cons y t =>
      obtain ⟨rfl, -⟩ := List.cons.inj ht
      exact absurd (List.mem_append_right b List.mem_cons_self) ha

namespace Chunked
open Utf8

def crlf : Bytes := [13, 10]

def hexDigit (d : ℕ) : UInt8 := if d < 10 then UInt8.ofNat (48 + d) else UInt8.ofNat (87 + d)

def hex (n : ℕ) : Bytes := if n = 0 then [48] else (Nat.digits 16 n).reverse.map hexDigit

def isHexDigit (b : UInt8) : Bool :=
  (48 ≤ b && b ≤ 57) || (65 ≤ b && b ≤ 70) || (97 ≤ b && b ≤ 102)

def hexValue (b : UInt8) : ℕ :=
  if b ≤ 57 then b.toNat - 48 else if b ≤ 70 then b.toNat - 55 else b.toNat - 87

theorem hexDigit_value {d : ℕ} (h : d < 16) :
    isHexDigit (hexDigit d) = true ∧ hexValue (hexDigit d) = d := by
  have hall : ∀ d : Fin 16, isHexDigit (hexDigit d) = true ∧ hexValue (hexDigit d) = d := by decide
  exact hall ⟨d, h⟩

theorem hex_digits (n : ℕ) : ∀ b ∈ hex n, isHexDigit b = true := by
  intro b hb
  rw [hex] at hb
  split_ifs at hb
  · rw [List.mem_singleton] at hb
    rw [hb]
    rfl
  · obtain ⟨d, hd, rfl⟩ := List.mem_map.mp hb
    exact (hexDigit_value (Nat.digits_lt_base (by decide) (List.mem_reverse.mp hd))).1

theorem hex_ne_nil (n : ℕ) : hex n ≠ [] := by
  rw [hex]
  split_ifs with hn
  · exact List.cons_ne_nil _ _
  · simpa [Nat.digits_eq_nil_iff_eq_zero] using hn

theorem hex_value (n : ℕ) : Nat.ofDigits 16 ((hex n).map hexValue).reverse = n := by
  rw [hex]
  split_ifs with hn
  · rw [hn]
    rfl
  · have hmap : (Nat.digits 16 n).map (hexValue ∘ hexDigit) = Nat.digits 16 n := by
      conv_rhs => rw [← List.map_id (Nat.digits 16 n)]
      apply List.map_congr_left
      intro d hd
      exact (hexDigit_value (Nat.digits_lt_base (by decide) hd)).2
    rw [List.map_map, List.map_reverse, hmap, List.reverse_reverse, Nat.ofDigits_digits]

theorem hex_no_cr (n : ℕ) : (13 : UInt8) ∉ hex n := fun h => absurd (hex_digits n 13 h) (by decide)

def chunk (data : Bytes) : Bytes := hex data.length ++ crlf ++ data ++ crlf

def lastChunk : Bytes := 48 :: crlf ++ crlf

def readLine (bs : Bytes) : Option (Bytes × Bytes) := cutFirst crlf bs

/-- The length at the beginning of a chunk; extensions follow behind a semicolon. -/
def readSize (line : Bytes) : Option ℕ :=
  let digits := line.takeWhile isHexDigit
  let extension := line.dropWhile isHexDigit
  if digits ≠ [] ∧ (extension = [] ∨ extension.head? = some 59) then
    some (Nat.ofDigits 16 (digits.map hexValue).reverse)
  else none

/-- The lines of the trailer, up to the empty one; every line has an end. -/
def skipTrailer : ℕ → Bytes → Option Bytes
  | 0, _ => none
  | lines + 1, bs => do
    let (line, rest) ← readLine bs
    if line = [] then some rest else skipTrailer lines rest

/-- The text of the chunks, and what follows the last one. -/
def decodeFrom : ℕ → Bytes → Option (Bytes × Bytes)
  | 0, _ => none
  | chunks + 1, bs => do
    let (line, rest) ← readLine bs
    let size ← readSize line
    if size = 0 then
      let after ← skipTrailer rest.length rest
      some ([], after)
    else if crlf <+: rest.drop size then
      let (text, after) ← decodeFrom chunks (rest.drop (size + 2))
      some (rest.take size ++ text, after)
    else none

/-- Every chunk has a byte, so the bytes bound the chunks. -/
def decode (bs : Bytes) : Option (Bytes × Bytes) := decodeFrom bs.length bs

theorem readLine_append {line : Bytes} (h : (13 : UInt8) ∉ line) (rest : Bytes) :
    readLine (line ++ crlf ++ rest) = some (line, rest) := cutFirst_append h [10] rest

theorem readSize_hex (n : ℕ) : readSize (hex n) = some n := by
  have htake : (hex n).takeWhile isHexDigit = hex n := List.takeWhile_eq_self_iff.mpr (hex_digits n)
  have hdrop : (hex n).dropWhile isHexDigit = [] := List.dropWhile_eq_nil_iff.mpr (hex_digits n)
  simp only [readSize, htake, hdrop]
  simp [hex_ne_nil n, hex_value]

theorem decodeFrom_chunk {data : Bytes} (hdata : data ≠ []) (chunks : ℕ) (rest : Bytes) :
    decodeFrom (chunks + 1) (chunk data ++ rest) =
      (decodeFrom chunks rest).map fun r => (data ++ r.1, r.2) := by
  have hbytes : chunk data ++ rest = hex data.length ++ crlf ++ (data ++ (crlf ++ rest)) := by
    simp [chunk]
  have hsize : data.length ≠ 0 := fun h => hdata (List.length_eq_zero_iff.mp h)
  have hafter : (data ++ (crlf ++ rest)).drop (data.length + 2) = rest := by
    rw [← List.append_assoc]
    exact List.drop_left' (by simp [crlf])
  rw [decodeFrom, hbytes, readLine_append (hex_no_cr _)]
  simp only [Option.bind_eq_bind, Option.bind_some, readSize_hex]
  rw [if_neg hsize, List.drop_left, if_pos (List.prefix_append crlf rest), hafter, List.take_left]
  cases decodeFrom chunks rest with
  | none => rfl
  | some r => rfl

theorem decodeFrom_lastChunk (chunks : ℕ) (rest : Bytes) :
    decodeFrom (chunks + 1) (lastChunk ++ rest) = some ([], rest) := by
  have hline : readLine (lastChunk ++ rest) = some (hex 0, crlf ++ rest) :=
    readLine_append (hex_no_cr 0) (crlf ++ rest)
  have htrailer : skipTrailer (crlf ++ rest).length (crlf ++ rest) = some rest := rfl
  rw [decodeFrom, hline]
  simp only [Option.bind_eq_bind, Option.bind_some, readSize_hex, htrailer]
  rfl

theorem decodeFrom_chunks {texts : List Bytes} (h : ∀ text ∈ texts, text ≠ []) (rest : Bytes)
    {chunks : ℕ} (hchunks : texts.length < chunks) :
    decodeFrom chunks (texts.flatMap chunk ++ lastChunk ++ rest) = some (texts.flatten, rest) := by
  induction texts generalizing chunks with
  | nil =>
    obtain ⟨left, rfl⟩ := Nat.exists_eq_succ_of_ne_zero (Nat.ne_of_gt hchunks)
    exact decodeFrom_lastChunk left rest
  | cons text texts ih =>
    obtain ⟨left, rfl⟩ := Nat.exists_eq_succ_of_ne_zero (Nat.ne_of_gt (Nat.zero_lt_of_lt hchunks))
    rw [List.flatMap_cons, List.append_assoc, List.append_assoc,
      decodeFrom_chunk (h text List.mem_cons_self), ← List.append_assoc,
      ih (fun t ht => h t (List.mem_cons_of_mem _ ht)) (Nat.lt_of_succ_lt_succ hchunks)]
    rfl

theorem length_le_chunks (texts : List Bytes) : texts.length ≤ (texts.flatMap chunk).length := by
  induction texts with
  | nil => exact Nat.le_refl 0
  | cons text texts ih =>
    have hlen : 0 < (chunk text).length := by simp [chunk, crlf]
    rw [List.flatMap_cons, List.length_append, List.length_cons]
    omega

/-- Chunks with a text each are read back, up to the end of the last one. -/
theorem decode_chunks {texts : List Bytes} (h : ∀ text ∈ texts, text ≠ []) (rest : Bytes) :
    decode (texts.flatMap chunk ++ lastChunk ++ rest) = some (texts.flatten, rest) := by
  have hlen := length_le_chunks texts
  apply decodeFrom_chunks h
  rw [List.length_append, List.length_append]
  have hlast : lastChunk.length = 5 := rfl
  omega

/-- No empty chunk is found in a chunk whose text has no carriage return. -/
theorem lastChunk_not_infix {data : Bytes} (hdata : data ≠ []) (hcr : (13 : UInt8) ∉ data) :
    ¬ lastChunk <:+: chunk data := by
  rintro ⟨before, after, h⟩
  have hbytes : hex data.length ++ 13 :: 10 :: (data ++ 13 :: [10]) =
      (before ++ [48]) ++ 13 :: 10 :: 13 :: 10 :: after := by
    simpa [chunk, lastChunk, crlf] using h.symm
  rcases append_cons_cases (hex_no_cr _) hbytes with ⟨-, hrest⟩ | ⟨c, -, hrest⟩
  · -- the second carriage return would be in the text
    cases data with
    | nil => exact hdata rfl
    | cons b data =>
      have hb : b = 13 := (List.cons.inj (List.cons.inj hrest).2).1
      exact hcr (hb ▸ List.mem_cons_self)
  · -- nothing follows the last line feed
    have hcr' : (13 : UInt8) ∉ 10 :: data := by simpa using hcr
    rw [← List.cons_append] at hrest
    rcases append_cons_cases hcr' hrest with ⟨-, hend⟩ | ⟨c', -, hend⟩
    · cases hend
    · have hlen := congrArg List.length hend
      simp only [List.length_append, List.length_cons, List.length_nil] at hlen
      omega

end Chunked

end ZInferLM.Library
