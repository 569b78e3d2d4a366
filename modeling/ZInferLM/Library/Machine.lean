import ZInferLM.Library.Outcome

/-! # Bytes, addresses and `int`

A region of memory is a list of bytes, addressed from its start. A read outside it has no meaning.
`Holds` says what stands where, and a read of what stands there returns it. -/

namespace ZInferLM.Library.Machine

def toBytes : ℕ → ℕ → List UInt8
  | 0, _ => []
  | width + 1, n => UInt8.ofNat n :: toBytes width (n / 256)

def ofBytes : List UInt8 → ℕ
  | [] => 0
  | b :: bs => b.toNat + 256 * ofBytes bs

@[simp] theorem length_toBytes (width n : ℕ) : (toBytes width n).length = width := by
  induction width generalizing n with
  | zero => rfl
  | succ width ih => rw [toBytes, List.length_cons, ih]

theorem ofBytes_toBytes {width n : ℕ} (h : n < 256 ^ width) : ofBytes (toBytes width n) = n := by
  induction width generalizing n with
  | zero =>
    rw [pow_zero, Nat.lt_one_iff] at h
    rw [h]
    rfl
  | succ width ih =>
    have hdiv : n / 256 < 256 ^ width := by
      apply Nat.div_lt_of_lt_mul
      rwa [pow_succ, Nat.mul_comm] at h
    rw [toBytes, ofBytes, ih hdiv, UInt8.toNat_ofNat']
    omega

theorem ofBytes_lt (bs : List UInt8) : ofBytes bs < 256 ^ bs.length := by
  induction bs with
  | nil => exact Nat.one_pos
  | cons b bs ih =>
    have hb := b.toNat_lt
    rw [ofBytes, List.length_cons, pow_succ]
    omega

theorem toBytes_ofBytes (bs : List UInt8) : toBytes bs.length (ofBytes bs) = bs := by
  induction bs with
  | nil => rfl
  | cons b bs ih =>
    have hb := b.toNat_lt
    have hdiv : (b.toNat + 256 * ofBytes bs) / 256 = ofBytes bs := by omega
    have hlow : UInt8.ofNat (b.toNat + 256 * ofBytes bs) = b := by
      apply UInt8.toNat_inj.mp
      rw [UInt8.toNat_ofNat']
      omega
    rw [List.length_cons, toBytes, ofBytes, hdiv, ih, hlow]

variable {mem : List UInt8}

def read (mem : List UInt8) (p : ℤ) (count : ℕ) : Outcome (List UInt8) :=
  if count = 0 ∨ 0 ≤ p ∧ p + count ≤ mem.length then .ok ((mem.drop p.toNat).take count)
  else .error (.undefined "read outside the region")

def readNat (mem : List UInt8) (p : ℤ) (width : ℕ) : Outcome ℕ := do
  let bs ← read mem p width
  .ok (ofBytes bs)

def Holds (mem : List UInt8) (pos : ℕ) (bs : List UInt8) : Prop :=
  ∃ before after, mem = before ++ (bs ++ after) ∧ before.length = pos

variable {pos : ℕ} {a b bs : List UInt8}

theorem Holds.left (h : Holds mem pos (a ++ b)) : Holds mem pos a := by
  obtain ⟨before, after, rfl, rfl⟩ := h
  exact ⟨before, b ++ after, by rw [List.append_assoc], rfl⟩

theorem Holds.right (h : Holds mem pos (a ++ b)) : Holds mem (pos + a.length) b := by
  obtain ⟨before, after, rfl, rfl⟩ := h
  exact ⟨before ++ a, after, by simp only [List.append_assoc], List.length_append⟩

theorem Holds.le (h : Holds mem pos bs) : pos + bs.length ≤ mem.length := by
  obtain ⟨before, after, rfl, rfl⟩ := h
  simp only [List.length_append]
  omega

theorem Holds.read_eq (h : Holds mem pos bs) : read mem pos bs.length = .ok bs := by
  have hle := h.le
  rw [read, if_pos (.inr ⟨Int.natCast_nonneg pos, by exact_mod_cast hle⟩), Int.toNat_natCast]
  obtain ⟨before, after, rfl, rfl⟩ := h
  rw [List.drop_left, List.take_left]

/-- What stands at a position is where the bytes from there on begin. -/
theorem holds_iff : Holds mem pos bs ↔ pos ≤ mem.length ∧ bs <+: mem.drop pos := by
  constructor
  · rintro ⟨before, after, rfl, rfl⟩
    rw [List.drop_left, List.length_append]
    exact ⟨Nat.le_add_right _ _, List.prefix_append _ _⟩
  · rintro ⟨hle, after, hafter⟩
    refine ⟨mem.take pos, after, ?_, List.length_take_of_le hle⟩
    rw [hafter, List.take_append_drop]

theorem Holds.append (ha : Holds mem pos a) (hb : Holds mem (pos + a.length) b) :
    Holds mem pos (a ++ b) := by
  rw [holds_iff] at ha hb ⊢
  obtain ⟨hle, rest, hrest⟩ := ha
  refine ⟨hle, ?_⟩
  rw [← List.drop_drop, ← hrest, List.drop_left] at hb
  rw [← hrest]
  exact (List.prefix_append_right_inj a).mpr hb.2

theorem holds_nil (h : pos ≤ mem.length) : Holds mem pos [] := holds_iff.mpr ⟨h, List.nil_prefix⟩

theorem holds_of_read {p : ℤ} {count : ℕ} (hcount : count ≠ 0) (h : read mem p count = .ok bs) :
    bs.length = count ∧ 0 ≤ p ∧ Holds mem p.toNat bs := by
  rw [read] at h
  split_ifs at h with hinside
  cases h
  obtain ⟨hp, hle⟩ := hinside.resolve_left hcount
  have hlength : ((mem.drop p.toNat).take count).length = count := by
    rw [List.length_take, List.length_drop]
    omega
  exact ⟨hlength, hp, holds_iff.mpr ⟨by omega, List.take_prefix _ _⟩⟩

theorem holds_of_readNat {width n : ℕ} (hwidth : width ≠ 0) (h : readNat mem pos width = .ok n) :
    n < 256 ^ width ∧ Holds mem pos (toBytes width n) := by
  obtain ⟨bs, hread, hn⟩ := Outcome.bind_eq_ok.mp h
  obtain ⟨hlength, -, hholds⟩ := holds_of_read hwidth hread
  cases hn
  rw [← hlength, toBytes_ofBytes]
  exact ⟨ofBytes_lt bs, hholds⟩

theorem Holds.readNat_eq {width n : ℕ} (h : Holds mem pos (toBytes width n))
    (hn : n < 256 ^ width) : readNat mem pos width = .ok n := by
  have hread := h.read_eq
  rw [length_toBytes] at hread
  rw [readNat, hread, Outcome.ok_bind, ofBytes_toBytes hn]

/-- Conversion to `int`: the remainder in `[-2^31, 2^31)`. -/
def toInt (n : ℤ) : ℤ := n.bmod (2 ^ 32)

theorem toInt_of_lt {n : ℕ} (h : n < 2 ^ 31) : toInt n = n := by
  rw [toInt, Int.bmod_eq_of_le] <;> omega

/-- The sum of two `int`s; an overflow has no meaning. -/
def addInt (a b : ℤ) : Outcome ℤ :=
  if -2 ^ 31 ≤ a + b ∧ a + b < 2 ^ 31 then .ok (a + b) else .error (.undefined "int overflow")

theorem addInt_of_lt {m n : ℕ} (h : m + n < 2 ^ 31) : addInt m n = .ok ((m + n : ℕ) : ℤ) := by
  rw [addInt, if_pos (by omega), Nat.cast_add]

def alignUp (n a : ℕ) : ℕ := n + (a - n % a) % a

theorem dvd_alignUp (n : ℕ) {a : ℕ} (ha : 0 < a) : a ∣ alignUp n a := by
  have hlt := Nat.mod_lt n ha
  by_cases h0 : n % a = 0
  · rw [alignUp, h0, Nat.sub_zero, Nat.mod_self]
    exact Nat.dvd_of_mod_eq_zero h0
  · rw [alignUp, Nat.mod_eq_of_lt (by omega)]
    refine ⟨n / a + 1, ?_⟩
    have hdiv := Nat.div_add_mod n a
    rw [Nat.mul_add, Nat.mul_one]
    omega

theorem le_alignUp (n a : ℕ) : n ≤ alignUp n a := Nat.le_add_right _ _

theorem alignUp_lt (n : ℕ) {a : ℕ} (ha : 0 < a) : alignUp n a < n + a :=
  Nat.add_lt_add_left (Nat.mod_lt _ ha) n

/-- Padding finds the least multiple from the number on. -/
theorem isLeast_alignUp (n : ℕ) {a : ℕ} (ha : 0 < a) :
    IsLeast {m | n ≤ m ∧ a ∣ m} (alignUp n a) := by
  refine ⟨⟨le_alignUp n a, dvd_alignUp n ha⟩, fun m hm => ?_⟩
  by_contra hlt
  -- two multiples that are less than `a` apart
  have hdvd := Nat.dvd_sub (dvd_alignUp n ha) hm.2
  have hle := Nat.le_of_dvd (by omega) hdvd
  have hpad := alignUp_lt n ha
  have hn := hm.1
  omega

/-- From an aligned base on, addresses are padded as offsets are. -/
theorem alignUp_add {a b : ℕ} (h : a ∣ b) (n : ℕ) : alignUp (b + n) a = b + alignUp n a := by
  obtain ⟨k, rfl⟩ := h
  rw [alignUp, alignUp, Nat.mul_add_mod, Nat.add_assoc]

end ZInferLM.Library.Machine
