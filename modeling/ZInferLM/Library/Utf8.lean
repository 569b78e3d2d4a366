import Mathlib.Tactic

/-! # UTF-8 text as a byte string

A text is a list of scalar values and its bytes are the concatenation of their encodings.
A byte below `128` is a whole character, so a byte string can be cut in front of one, or
behind a run of them, without leaving the encoded texts. -/

namespace ZInferLM.Library.Utf8

abbrev Bytes := List UInt8

def encode (cs : List Char) : Bytes := cs.flatMap String.utf8EncodeChar

@[simp] theorem encode_nil : encode [] = [] := rfl

@[simp] theorem encode_cons (c : Char) (cs : List Char) :
    encode (c :: cs) = String.utf8EncodeChar c ++ encode cs := rfl

@[simp] theorem encode_append (cs ds : List Char) : encode (cs ++ ds) = encode cs ++ encode ds :=
  List.flatMap_append

def Valid (bs : Bytes) : Prop := ∃ cs, encode cs = bs

theorem valid_encode (cs : List Char) : Valid (encode cs) := ⟨cs, rfl⟩

theorem valid_nil : Valid [] := valid_encode []

theorem Valid.append {a b : Bytes} (ha : Valid a) (hb : Valid b) : Valid (a ++ b) := by
  obtain ⟨cs, rfl⟩ := ha
  obtain ⟨ds, rfl⟩ := hb
  exact ⟨cs ++ ds, encode_append cs ds⟩

def Ascii (bs : Bytes) : Prop := ∀ b ∈ bs, b < 128

instance (bs : Bytes) : Decidable (Ascii bs) := inferInstanceAs (Decidable (∀ b ∈ bs, b < 128))

theorem utf8EncodeChar_ne_nil (c : Char) : String.utf8EncodeChar c ≠ [] := by
  have h := String.length_utf8EncodeChar c
  intro he
  rw [he] at h
  exact absurd h.symm (Nat.ne_of_gt (Char.utf8Size_pos c))

theorem length_le_encode (cs : List Char) : cs.length ≤ (encode cs).length := by
  induction cs with
  | nil => simp
  | cons c cs ih =>
    have h := List.length_pos_iff.mpr (utf8EncodeChar_ne_nil c)
    rw [encode_cons, List.length_append, List.length_cons]
    omega

theorem encode_eq_nil {cs : List Char} : encode cs = [] ↔ cs = [] := by
  cases cs with
  | nil => simp
  | cons c cs => simp

/-- Below `128` a byte starts a character. -/
theorem isUTF8FirstByte_of_low {b : UInt8} (h : b < 128) : b.IsUTF8FirstByte := by
  have hall : ∀ n : Fin 256, UInt8.ofNat n < 128 → (UInt8.ofNat n).IsUTF8FirstByte := by
    decide +kernel
  have hb : UInt8.ofNat b.toNat = b := UInt8.ofNat_toNat
  rw [← hb] at h ⊢
  exact hall ⟨b.toNat, b.toNat_lt⟩ h

/-- A cut in front of a byte that starts a character, or at the end, falls between two
characters. -/
theorem encode_split {cs : List Char} {a b : Bytes} (h : encode cs = a ++ b)
    (hb : ∀ x, b.head? = some x → x.IsUTF8FirstByte) : Valid a ∧ Valid b := by
  induction cs generalizing a with
  | nil =>
    obtain ⟨rfl, rfl⟩ := List.append_eq_nil_iff.mp h.symm
    exact ⟨valid_nil, valid_nil⟩
  | cons c cs ih =>
    rw [encode_cons] at h
    rcases List.append_eq_append_iff.mp h with ⟨t, rfl, ht⟩ | ⟨t, hc, rfl⟩
    · obtain ⟨hv, hw⟩ := ih ht
      exact ⟨Valid.append ⟨[c], by simp⟩ hv, hw⟩
    · -- the cut is inside the first character, so `t` is all of it or nothing
      cases t with
      | nil =>
        rw [List.append_nil] at hc
        exact ⟨⟨[c], by simpa using hc⟩, valid_encode cs⟩
      | cons x t =>
        have hx : x.IsUTF8FirstByte := hb x (by simp)
        have hlen : a.length < (String.utf8EncodeChar c).length := by simp [hc]
        have hget : (String.utf8EncodeChar c)[a.length] = x := by simp [hc]
        rw [← hget, UInt8.isUTF8FirstByte_getElem_utf8EncodeChar, List.length_eq_zero_iff] at hx
        subst hx
        rw [List.nil_append] at hc
        exact ⟨valid_nil, c :: cs, by rw [encode_cons, hc]⟩

theorem Valid.split {a b : Bytes} (h : Valid (a ++ b))
    (hb : ∀ x, b.head? = some x → x.IsUTF8FirstByte) : Valid a ∧ Valid b := by
  obtain ⟨cs, hcs⟩ := h
  exact encode_split hcs hb

/-- A text starts with a byte that starts a character. -/
theorem Valid.isUTF8FirstByte {bs : Bytes} (h : Valid bs) {x : UInt8} (hx : bs.head? = some x) :
    x.IsUTF8FirstByte := by
  obtain ⟨cs, rfl⟩ := h
  cases cs with
  | nil => cases hx
  | cons c cs =>
    have hpos : 0 < (String.utf8EncodeChar c).length :=
      List.length_pos_of_ne_nil (utf8EncodeChar_ne_nil c)
    rw [encode_cons, List.head?_append_of_ne_nil _ (utf8EncodeChar_ne_nil c), List.head?_eq_getElem?,
      List.getElem?_eq_getElem hpos, Option.some.injEq] at hx
    rw [← hx, UInt8.isUTF8FirstByte_getElem_utf8EncodeChar]

def decode (bs : Bytes) : List Char := (bs.toByteArray.utf8Decode?.getD #[]).toList

theorem encode_toByteArray (cs : List Char) : (encode cs).toByteArray = cs.utf8Encode := by
  induction cs with
  | nil => rfl
  | cons c cs ih => rw [encode_cons, List.toByteArray_append, ih, List.utf8Encode_cons,
      List.utf8Encode_singleton]

@[simp] theorem decode_encode (cs : List Char) : decode (encode cs) = cs := by
  rw [decode, encode_toByteArray, List.utf8Decode?_utf8Encode]
  simp

/-- A text that starts with a text goes on with one. -/
theorem encode_cancel {cs ds : List Char} {b : Bytes} (h : encode cs ++ b = encode ds) :
    ∃ es, ds = cs ++ es ∧ encode es = b := by
  have hbytes : cs.utf8Encode ++ b.toByteArray = ds.utf8Encode := by
    rw [← encode_toByteArray, ← encode_toByteArray, ← h, List.toByteArray_append]
  obtain ⟨es, rfl⟩ := List.isPrefix_of_utf8Encode_append_eq_utf8Encode _ hbytes
  refine ⟨es, rfl, ?_⟩
  rw [encode_append] at h
  exact (List.append_cancel_left h).symm

theorem encode_infix {cs ds : List Char} (hcs : cs ≠ []) (h : encode cs <:+: encode ds) :
    cs <:+: ds := by
  obtain ⟨a, b, heq⟩ := h
  have hfirst : ∀ x, (encode cs ++ b).head? = some x → x.IsUTF8FirstByte := by
    intro x hx
    rw [List.head?_append_of_ne_nil _ (mt encode_eq_nil.mp hcs)] at hx
    exact (valid_encode cs).isUTF8FirstByte hx
  rw [List.append_assoc] at heq
  obtain ⟨⟨as, rfl⟩, _⟩ := encode_split heq.symm hfirst
  obtain ⟨es, rfl, hes⟩ := encode_cancel heq
  obtain ⟨fs, rfl, _⟩ := encode_cancel hes.symm
  exact ⟨as, fs, List.append_assoc as cs fs⟩

theorem Valid.drop {a b : Bytes} (h : Valid (a ++ b)) (ha : Valid a) : Valid b := by
  obtain ⟨cs, rfl⟩ := ha
  obtain ⟨ds, hds⟩ := h
  obtain ⟨es, _, hes⟩ := encode_cancel hds.symm
  exact ⟨es, hes⟩

/-- The parts of a text are texts if and only if none of them starts inside a character. -/
theorem valid_parts_iff {parts : List Bytes} (h : Valid parts.flatten) :
    (∀ p ∈ parts, Valid p) ↔ ∀ p ∈ parts, ∀ b, p.head? = some b → b.IsUTF8FirstByte := by
  constructor
  · intro hall p hp b hb
    exact (hall p hp).isUTF8FirstByte hb
  · intro hfirst
    induction parts with
    | nil => exact fun p hp => absurd hp List.not_mem_nil
    | cons q parts ih =>
      rw [List.forall_mem_cons] at hfirst
      have hrest : ∀ b, parts.flatten.head? = some b → b.IsUTF8FirstByte := by
        intro b hb
        rw [List.head?_flatten] at hb
        obtain ⟨p, hp, hpb⟩ := List.exists_of_findSome?_eq_some hb
        exact hfirst.2 p hp b hpb
      obtain ⟨hq, htail⟩ := Valid.split h hrest
      rw [List.forall_mem_cons]
      exact ⟨hq, ih htail hfirst.2⟩

theorem encode_flatMap_decode {parts : List Bytes} (h : ∀ p ∈ parts, Valid p) :
    encode (parts.flatMap decode) = parts.flatten := by
  induction parts with
  | nil => rfl
  | cons q parts ih =>
    rw [List.forall_mem_cons] at h
    obtain ⟨cs, rfl⟩ := h.1
    rw [List.flatMap_cons, decode_encode, encode_append, ih h.2, List.flatten_cons]

theorem Ascii.valid {bs : Bytes} (h : Ascii bs) : Valid bs := by
  have hall : ∀ n : Fin 128, encode [Char.ofNat n] = [UInt8.ofNat n] := by decide +kernel
  induction bs with
  | nil => exact valid_nil
  | cons b bs ih =>
    have hb : b.toNat < 128 := UInt8.lt_iff_toNat_lt.mp (h b List.mem_cons_self)
    have hsingle : Valid [b] := by
      refine ⟨[Char.ofNat b.toNat], (hall ⟨b.toNat, hb⟩).trans ?_⟩
      rw [UInt8.ofNat_toNat]
    exact hsingle.append (ih fun x hx => h x (List.mem_cons_of_mem _ hx))

theorem Valid.drop_ascii {a b : Bytes} (h : Valid (a ++ b)) (ha : Ascii a) : Valid b :=
  h.drop ha.valid

end ZInferLM.Library.Utf8
