import ZInferLM.Library.Utf8

/-! # The byte alphabet of the vocabulary

Every byte is written as one character: a printable byte as the code point of the same value,
any other byte as the next free code point from `256` on. `unicodeToChars` reads such a string
back, and copies a character that is not in the alphabet. -/

namespace ZInferLM.Tokenizer
open Library.Utf8

/-- The lambda `code_point_to_utf8`: one or two bytes, nothing above `0x7FF`. -/
def codePointToUtf8 (cp : ℕ) : Bytes :=
  if cp ≤ 0x7F then [UInt8.ofNat cp]
  else if cp ≤ 0x7FF then [UInt8.ofNat (0xC0 ||| (cp >>> 6)), UInt8.ofNat (0x80 ||| (cp &&& 0x3F))]
  else []

def isPrintable (b : ℕ) : Bool :=
  (0x21 ≤ b && b ≤ 0x7E) || (0xA1 ≤ b && b ≤ 0xAC) || (0xAE ≤ b && b ≤ 0xFF)

/-- The two maps under construction and the next free code point. -/
structure ByteMaps where
  byteToUnicode : UInt8 → Bytes
  unicodeToByte : Bytes → Option UInt8
  shiftedCodePoint : ℕ

def ByteMaps.assign (m : ByteMaps) (b : ℕ) (cp : ℕ) : ByteMaps :=
  { m with
    byteToUnicode := Function.update m.byteToUnicode (UInt8.ofNat b) (codePointToUtf8 cp)
    unicodeToByte := Function.update m.unicodeToByte (codePointToUtf8 cp) (some (UInt8.ofNat b)) }

def ByteMaps.step (m : ByteMaps) (b : ℕ) : ByteMaps :=
  if isPrintable b then m.assign b b
  else { m.assign b m.shiftedCodePoint with shiftedCodePoint := m.shiftedCodePoint + 1 }

def buildByteToUnicodeMap : ByteMaps :=
  (List.range 256).foldl ByteMaps.step ⟨fun _ => [], fun _ => none, 256⟩

/-- How many bytes below `n` have no code point of their own value. -/
def shifted (n : ℕ) : ℕ := (List.range n).countP fun b => !isPrintable b

theorem shifted_succ (n : ℕ) : shifted (n + 1) = shifted n + if isPrintable n then 0 else 1 := by
  rw [shifted, List.range_succ, List.countP_append]
  cases h : isPrintable n <;> simp [shifted, h]

theorem shifted_mono {m n : ℕ} (h : m ≤ n) : shifted m ≤ shifted n :=
  (List.range_sublist.mpr h).countP_le

def codePoint (b : ℕ) : ℕ := if isPrintable b then b else 256 + shifted b

theorem isPrintable_lt {b : ℕ} (h : isPrintable b = true) : b < 256 := by
  simp only [isPrintable, Bool.or_eq_true, Bool.and_eq_true, decide_eq_true_eq] at h
  omega

theorem codePoint_injective : Function.Injective codePoint := by
  intro a b h
  unfold codePoint at h
  split_ifs at h with ha hb hb
  · exact h
  · exact absurd (isPrintable_lt ha) (by omega)
  · exact absurd (isPrintable_lt hb) (by omega)
  · have ha' := shifted_succ a
    have hb' := shifted_succ b
    rw [if_neg ha] at ha'
    rw [if_neg hb] at hb'
    rcases Nat.lt_trichotomy a b with hlt | rfl | hlt
    · have := shifted_mono (show _ + 1 ≤ _ from hlt)
      omega
    · rfl
    · have := shifted_mono (show _ + 1 ≤ _ from hlt)
      omega

theorem codePoint_le (b : ℕ) (hb : b < 256) : codePoint b ≤ 0x7FF := by
  unfold codePoint
  split
  · omega
  · have : shifted b ≤ b := by simpa [shifted] using List.countP_le_length (l := List.range b)
    omega

theorem codePointToUtf8_two {cp : ℕ} (h1 : 0x7F < cp) (h2 : cp ≤ 0x7FF) :
    codePointToUtf8 cp = [UInt8.ofNat (192 + cp / 64), UInt8.ofNat (128 + cp % 64)] := by
  have hhi : ∀ x < 32, 0xC0 ||| x = 192 + x := by decide
  have hlo : ∀ x < 64, 0x80 ||| x = 128 + x := by decide
  have hand : cp &&& 0x3F = cp % 64 := Nat.and_two_pow_sub_one_eq_mod cp 6
  rw [codePointToUtf8, if_neg (by omega), if_pos h2, Nat.shiftRight_eq_div_pow, hand,
    hhi _ (by omega), hlo _ (by omega)]

theorem codePointToUtf8_injOn {a b : ℕ} (ha : a ≤ 0x7FF) (hb : b ≤ 0x7FF)
    (h : codePointToUtf8 a = codePointToUtf8 b) : a = b := by
  by_cases ha1 : a ≤ 0x7F <;> by_cases hb1 : b ≤ 0x7F
  · rw [codePointToUtf8, codePointToUtf8, if_pos ha1, if_pos hb1] at h
    have := congrArg UInt8.toNat (List.cons.inj h).1
    simp only [UInt8.toNat_ofNat'] at this
    omega
  · rw [codePointToUtf8_two (by omega) hb, codePointToUtf8, if_pos ha1] at h
    simp at h
  · rw [codePointToUtf8_two (by omega) ha, codePointToUtf8, if_pos hb1] at h
    simp at h
  · rw [codePointToUtf8_two (by omega) ha, codePointToUtf8_two (by omega) hb] at h
    obtain ⟨h1, h2⟩ := List.cons.inj h
    have h1 := congrArg UInt8.toNat h1
    have h2 := congrArg UInt8.toNat (List.cons.inj h2).1
    simp only [UInt8.toNat_ofNat'] at h1 h2
    omega

/-- The string that stands for a byte in the vocabulary. -/
def symbol (b : UInt8) : Bytes := codePointToUtf8 (codePoint b.toNat)

def symbols (bs : Bytes) : Bytes := bs.flatMap symbol

@[simp] theorem symbols_nil : symbols [] = [] := rfl

@[simp] theorem symbols_cons (b : UInt8) (bs : Bytes) : symbols (b :: bs) = symbol b ++ symbols bs :=
  rfl

@[simp] theorem symbols_append (a b : Bytes) : symbols (a ++ b) = symbols a ++ symbols b :=
  List.flatMap_append

theorem symbol_injective : Function.Injective symbol := fun a b h =>
  UInt8.toNat_inj.mp (codePoint_injective (codePointToUtf8_injOn
    (codePoint_le _ a.toNat_lt) (codePoint_le _ b.toNat_lt) h))

/-- A printable byte below `128` is its own symbol. -/
theorem symbol_printable {b : UInt8} (h1 : 0x21 ≤ b.toNat) (h2 : b.toNat ≤ 0x7E) : symbol b = [b] := by
  have hp : isPrintable b.toNat = true := by simp [isPrintable, h1, h2]
  rw [symbol, codePoint, if_pos hp, codePointToUtf8, if_pos (by omega), UInt8.ofNat_toNat]

/-- Any other byte has a symbol of two high bytes, the first one leading a pair. -/
theorem symbol_pair {b : UInt8} (h : ¬(0x21 ≤ b.toNat ∧ b.toNat ≤ 0x7E)) :
    ∃ x y, symbol b = [x, y] ∧ x &&& 0xE0 = 0xC0 ∧ 128 ≤ x ∧ 128 ≤ y := by
  have hlt := b.toNat_lt
  have hle := codePoint_le _ hlt
  have hgt : 0x7F < codePoint b.toNat := by
    unfold codePoint
    split
    · rename_i hp
      simp only [isPrintable, Bool.or_eq_true, Bool.and_eq_true, decide_eq_true_eq] at hp
      omega
    · omega
  have hlead : ∀ x < 32, UInt8.ofNat (192 + x) &&& 0xE0 = 0xC0 ∧ 128 ≤ UInt8.ofNat (192 + x) := by
    decide
  have htail : ∀ x < 64, 128 ≤ UInt8.ofNat (128 + x) := by decide
  refine ⟨_, _, codePointToUtf8_two hgt hle, ?_, ?_, ?_⟩
  · exact (hlead _ (by omega)).1
  · exact (hlead _ (by omega)).2
  · exact htail _ (by omega)

theorem symbol_ne_nil (b : UInt8) : symbol b ≠ [] := by
  by_cases h : 0x21 ≤ b.toNat ∧ b.toNat ≤ 0x7E
  · simp [symbol_printable h.1 h.2]
  · obtain ⟨x, y, hxy, -⟩ := symbol_pair h
    simp [hxy]

theorem mem_symbol_low {b x : UInt8} (hx : x ∈ symbol b) (hlow : x < 128) :
    symbol b = [b] ∧ x = b ∧ 0x21 ≤ b.toNat := by
  by_cases h : 0x21 ≤ b.toNat ∧ b.toNat ≤ 0x7E
  · have hs := symbol_printable h.1 h.2
    rw [hs] at hx
    exact ⟨hs, List.mem_singleton.mp hx, h.1⟩
  · obtain ⟨y, z, hyz, -, hy, hz⟩ := symbol_pair h
    rw [hyz] at hx
    rcases List.mem_cons.mp hx with rfl | hx
    · exact absurd hlow (by simpa using hy)
    · rw [List.mem_singleton.mp hx] at hlow
      exact absurd hlow (by simpa using hz)

/-- No symbol contains the blank that separates the two halves of a merge. -/
theorem blank_not_mem_symbol (b : UInt8) : (0x20 : UInt8) ∉ symbol b := by
  intro h
  obtain ⟨-, rfl, hb⟩ := mem_symbol_low h (by decide)
  exact absurd hb (by decide)

theorem blank_not_mem_symbols (bs : Bytes) : (0x20 : UInt8) ∉ symbols bs := by
  simp only [symbols, List.mem_flatMap, not_exists, not_and]
  exact fun b _ => blank_not_mem_symbol b

theorem symbols_ascii {w s : Bytes} (h : symbols w = s) (hs : Ascii s) : w = s := by
  induction w generalizing s with
  | nil => exact h
  | cons b w ih =>
    rw [symbols_cons] at h
    subst h
    obtain ⟨x, xs, hx⟩ := List.exists_cons_of_ne_nil (symbol_ne_nil b)
    have hlow : x < 128 := hs x (by simp [hx])
    obtain ⟨hb, -, -⟩ := mem_symbol_low (b := b) (x := x) (by simp [hx]) hlow
    rw [← ih rfl fun y hy => hs y (List.mem_append_right _ hy), hb]
    rfl

/-- What the maps hold after the bytes below `n`. -/
structure ByteMaps.Built (n : ℕ) (m : ByteMaps) : Prop where
  forward : ∀ b : UInt8, b.toNat < n → m.byteToUnicode b = symbol b
  backward : ∀ s b, m.unicodeToByte s = some b ↔ b.toNat < n ∧ symbol b = s
  next : m.shiftedCodePoint = 256 + shifted n

theorem ByteMaps.assign_built {n : ℕ} (hn : n < 256) {m : ByteMaps} (h : m.Built n) :
    (∀ b : UInt8, b.toNat < n + 1 → (m.assign n (codePoint n)).byteToUnicode b = symbol b) ∧
      ∀ s b, (m.assign n (codePoint n)).unicodeToByte s = some b ↔
        b.toNat < n + 1 ∧ symbol b = s := by
  have hval : (UInt8.ofNat n).toNat = n := by simp [UInt8.toNat_ofNat']; omega
  have hsym : symbol (UInt8.ofNat n) = codePointToUtf8 (codePoint n) := by rw [symbol, hval]
  constructor
  · intro b hb
    by_cases he : b = UInt8.ofNat n
    · simp [assign, he, hsym]
    · have hne : b.toNat ≠ n := fun hv => he (UInt8.toNat_inj.mp (by rw [hval, hv]))
      simp [assign, he, h.forward b (by omega)]
  · intro s b
    by_cases hs : s = codePointToUtf8 (codePoint n)
    · subst hs
      simp only [assign, Function.update_self, Option.some.injEq]
      constructor
      · rintro rfl
        exact ⟨by omega, hsym⟩
      · rintro ⟨-, hb⟩
        exact symbol_injective (hsym.trans hb.symm)
    · simp only [assign, Function.update_of_ne hs, h.backward]
      constructor
      · rintro ⟨hb, rfl⟩
        exact ⟨by omega, rfl⟩
      · rintro ⟨hb, rfl⟩
        have hne : b.toNat ≠ n := fun hv => hs (by rw [symbol, hv])
        exact ⟨by omega, rfl⟩

theorem ByteMaps.step_built {n : ℕ} (hn : n < 256) {m : ByteMaps} (h : m.Built n) :
    (m.step n).Built (n + 1) := by
  obtain ⟨hf, hb⟩ := assign_built hn h
  have hs := shifted_succ n
  by_cases hp : isPrintable n = true
  · rw [if_pos hp] at hs
    rw [codePoint, if_pos hp] at hf hb
    rw [step, if_pos hp]
    exact ⟨hf, hb, by rw [hs]; exact h.next⟩
  · rw [if_neg hp] at hs
    rw [codePoint, if_neg hp, ← h.next] at hf hb
    rw [step, if_neg hp]
    refine ⟨hf, hb, ?_⟩
    change m.shiftedCodePoint + 1 = _
    rw [hs, h.next, Nat.add_assoc]

theorem buildByteToUnicodeMap_built : buildByteToUnicodeMap.Built 256 := by
  have h : ∀ n ≤ 256, ((List.range n).foldl ByteMaps.step ⟨fun _ => [], fun _ => none, 256⟩).Built n := by
    intro n
    induction n with
    | zero => exact fun _ => ⟨fun b hb => by omega, fun s b => by simp, rfl⟩
    | succ n ih =>
      intro hn
      rw [List.range_succ, List.foldl_append]
      exact ByteMaps.step_built (by omega) (ih (by omega))
  exact h 256 le_rfl

@[simp] theorem byteToUnicode_eq (b : UInt8) : buildByteToUnicodeMap.byteToUnicode b = symbol b :=
  buildByteToUnicodeMap_built.forward b b.toNat_lt

/-- The inverse map knows exactly the symbols. -/
theorem unicodeToByte_eq_some {s : Bytes} {b : UInt8} :
    buildByteToUnicodeMap.unicodeToByte s = some b ↔ symbol b = s := by
  rw [buildByteToUnicodeMap_built.backward]
  exact ⟨And.right, fun h => ⟨b.toNat_lt, h⟩⟩

def charLength (c : UInt8) : ℕ :=
  if c &&& 0xE0 = 0xC0 then 2 else if c &&& 0xF0 = 0xE0 then 3
  else if c &&& 0xF8 = 0xF0 then 4 else 1

/-- The loop of `unicode_to_chars_` on the rest of the token; a turn removes at least one byte, so
the length of the token bounds the turns. -/
def unicodeToCharsLoop (unicodeToByte : Bytes → Option UInt8) : ℕ → Bytes → Bytes
  | 0, _ => []
  | _ + 1, [] => []
  | turns + 1, c :: cs =>
    let len := charLength c
    let piece := (c :: cs).take len
    ((unicodeToByte piece).elim piece fun b => [b]) ++
      unicodeToCharsLoop unicodeToByte turns ((c :: cs).drop len)

def unicodeToChars (unicodeToByte : Bytes → Option UInt8) (token : Bytes) : Bytes :=
  unicodeToCharsLoop unicodeToByte token.length token

theorem charLength_low {c : UInt8} (h : c < 128) : charLength c = 1 := by
  have hall : ∀ n < 128, charLength (UInt8.ofNat n) = 1 := by decide
  simpa using hall c.toNat (UInt8.lt_iff_toNat_lt.mp h)

theorem charLength_symbol (b : UInt8) :
    ∃ x xs, symbol b = x :: xs ∧ charLength x = (symbol b).length := by
  by_cases h : 0x21 ≤ b.toNat ∧ b.toNat ≤ 0x7E
  · have hs := symbol_printable h.1 h.2
    refine ⟨b, [], hs, ?_⟩
    rw [hs, charLength_low (UInt8.lt_iff_toNat_lt.mpr (by simp; omega))]
    rfl
  · obtain ⟨x, y, hxy, hx, -⟩ := symbol_pair h
    exact ⟨x, [y], hxy, by simp [charLength, hx, hxy]⟩

theorem unicodeToCharsLoop_symbols (w : Bytes) (turns : ℕ) (h : w.length ≤ turns) :
    unicodeToCharsLoop buildByteToUnicodeMap.unicodeToByte turns (symbols w) = w := by
  induction w generalizing turns with
  | nil => cases turns <;> rfl
  | cons b w ih =>
    obtain ⟨turns, rfl⟩ : ∃ t, turns = t + 1 := ⟨turns - 1, by simp at h; omega⟩
    obtain ⟨x, xs, hx, hlen⟩ := charLength_symbol b
    have hsplit : symbols (b :: w) = x :: (xs ++ symbols w) := by simp [hx]
    have htake : (x :: (xs ++ symbols w)).take (charLength x) = symbol b := by
      rw [hlen, ← hsplit, symbols_cons, List.take_left]
    have hdrop : (x :: (xs ++ symbols w)).drop (charLength x) = symbols w := by
      rw [hlen, ← hsplit, symbols_cons, List.drop_left]
    rw [hsplit, unicodeToCharsLoop, htake, hdrop, ih turns (by simpa using h),
      unicodeToByte_eq_some.mpr rfl]
    rfl

/-- The symbols of a byte string are read back as that byte string. -/
theorem unicodeToChars_symbols (w : Bytes) :
    unicodeToChars buildByteToUnicodeMap.unicodeToByte (symbols w) = w := by
  refine unicodeToCharsLoop_symbols w _ ?_
  induction w with
  | nil => simp
  | cons b w ih =>
    have := List.length_pos_iff.mpr (symbol_ne_nil b)
    rw [symbols_cons, List.length_append, List.length_cons]
    omega

theorem symbols_injective : Function.Injective symbols :=
  Function.LeftInverse.injective unicodeToChars_symbols

/-- A string of low bytes is read back unchanged, whether or not its bytes are symbols. -/
theorem unicodeToChars_ascii {s : Bytes} (hs : Ascii s) :
    unicodeToChars buildByteToUnicodeMap.unicodeToByte s = s := by
  unfold unicodeToChars
  induction s with
  | nil => rfl
  | cons c s ih =>
    have hc : c < 128 := hs c (by simp)
    have hpiece : (buildByteToUnicodeMap.unicodeToByte [c]).elim [c] (fun b => [b]) = [c] := by
      cases hb : buildByteToUnicodeMap.unicodeToByte [c] with
      | none => rfl
      | some b =>
        have hsym := unicodeToByte_eq_some.mp hb
        obtain ⟨-, rfl, -⟩ := mem_symbol_low (b := b) (x := c) (by simp [hsym]) hc
        rfl
    rw [List.length_cons, unicodeToCharsLoop, charLength_low hc]
    simp only [List.take_succ_cons, List.take_zero, List.drop_succ_cons, List.drop_zero]
    rw [hpiece, ih fun x hx => hs x (List.mem_cons_of_mem _ hx)]
    rfl

end ZInferLM.Tokenizer
