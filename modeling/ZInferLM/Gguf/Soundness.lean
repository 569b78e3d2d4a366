import ZInferLM.Gguf.Bounds
import ZInferLM.Gguf.RoundTrip

/-! # What is accepted

The round trip in the other direction. Where the loader returns and what it keeps can be read
through its views, the bytes behind the header are written entries and tensor infos, and the loader
returns what it returns for these. -/

namespace ZInferLM.Gguf
open Library Library.Machine
open Library.Utf8 (Bytes)

theorem MetadataDType.code_ofCode (raw : UInt32) : (ofCode raw).code = raw := by
  rw [ofCode]
  split
  all_goals first | rfl | (rename_i h; exact UInt32.toNat_inj.mp (h.symm))

def MetadataDType.IsPrimitive : MetadataDType → Prop
  | .string | .array | .unknown _ _ => False
  | _ => True

theorem MetadataDType.IsPrimitive.width_ne_zero {d : MetadataDType} (h : d.IsPrimitive) :
    d.width ≠ 0 := by
  cases d with
  | string => cases h
  | array => cases h
  | unknown => cases h
  | _ => simp [width]

theorem PrimitiveValue.of_ofBits {d : MetadataDType} (hd : d.IsPrimitive) {n : ℕ}
    (hn : n < 256 ^ d.width) {v : PrimitiveValue} (h : ofBits d n = .ok v) :
    v.dtype = d ∧ v.bits = n := by
  cases d with
  | string => cases hd
  | array => cases hd
  | unknown => cases hd
  | bool =>
    rw [ofBits] at h
    split_ifs at h with hbool
    cases h
    refine ⟨rfl, ?_⟩
    interval_cases n <;> rfl
  | _ =>
    cases h
    refine ⟨rfl, ?_⟩
    simp only [MetadataDType.width] at hn
    simp [bits]
    omega

mutual

def MetadataValue.span : MetadataValue → ℕ
  | .primitive _ size => size.toNat
  | .string s => 8 + s.len
  | .array _ _ elements => 4 + (8 + spanAll elements)

def spanAll : List MetadataValue → ℕ
  | [] => 0
  | e :: es => e.span + spanAll es

end

theorem spanAll_parsedAllAt {vs : List Value}
    (hvs : ∀ v ∈ vs, ∀ pos, (v.parsedAt pos).span = v.encode.length) (pos : ℕ) :
    spanAll (parsedAllAt pos vs) = (encodeAll vs).length := by
  induction vs generalizing pos with
  | nil => rfl
  | cons v vs ih =>
    rw [parsedAllAt, spanAll, hvs v List.mem_cons_self,
      ih (fun x hx => hvs x (List.mem_cons_of_mem v hx)), encodeAll, List.length_append]

theorem Value.Tagged.span_parsedAt {v : Value} {d : MetadataDType} (h : v.Tagged d) (pos : ℕ) :
    (v.parsedAt pos).span = v.encode.length := by
  induction h generalizing pos with
  | primitive v => rw [parsedAt, MetadataValue.span, Int.toNat_natCast, encode, length_toBytes]
  | string bs => rw [parsedAt, MetadataValue.span, encode, length_encodeString]
  | array valType elements _ _ ih =>
    rw [parsedAt, MetadataValue.span, spanAll_parsedAllAt ih, encode, List.length_append,
      List.length_append, length_toBytes, length_toBytes]
  | unknown raw h => rfl

variable {mem : Bytes}

theorem holds_string {pos : ℕ} {s : MetadataStringValue} {bs : Bytes}
    (h : MetadataStringValue.fromPtr mem pos = .ok s) (hview : s.toString mem = .ok bs) :
    bs.length < 2 ^ 64 ∧ Holds mem pos (encodeString bs) ∧ s = ⟨pos, bs.length⟩ := by
  obtain ⟨len, hlen, hs⟩ := Outcome.bind_eq_ok.mp h
  obtain ⟨hlt, hfield⟩ := holds_of_readNat (by decide) hlen
  cases hs
  rw [MetadataStringValue.toString] at hview
  by_cases hzero : len = 0
  · subst hzero
    rw [Machine.read, if_pos (.inl rfl), List.take_zero] at hview
    cases hview
    exact ⟨by norm_num, hfield.append (holds_nil hfield.le), rfl⟩
  · obtain ⟨rfl, -, hchars⟩ := holds_of_read hzero hview
    rw [show ((pos : ℤ) + 8).toNat = pos + (toBytes 8 bs.length).length by
      rw [length_toBytes]; omega] at hchars
    exact ⟨hlt, hfield.append hchars, rfl⟩

theorem holds_dtype {pos : ℕ} {d : MetadataDType} (h : MetadataDType.read mem pos = .ok d) :
    Holds mem pos (toBytes 4 d.code.toNat) := by
  obtain ⟨n, hn, hd⟩ := Outcome.bind_eq_ok.mp h
  obtain ⟨hlt, hholds⟩ := holds_of_readNat (by decide) hn
  cases hd
  rw [MetadataDType.code_ofCode, UInt32.toNat_ofNat']
  rwa [Nat.mod_eq_of_lt (by norm_num at hlt ⊢; omega)]

/-- What it means to find a written value at an address. -/
def Finds (mem : Bytes) (pos : ℕ) (d : MetadataDType) (val : MetadataValue) (v : Value) : Prop :=
  v.Tagged d ∧ Holds mem pos v.encode ∧ val = v.parsedAt pos

theorem Finds.span {pos : ℕ} {d : MetadataDType} {val : MetadataValue} {v : Value}
    (h : Finds mem pos d val v) : val.span = v.encode.length := by
  rw [h.2.2, h.1.span_parsedAt]

/-- The element loop has read elements that stand behind one another. -/
theorem exists_of_readElements {readOne : ℤ → Outcome MetadataValue} {d : MetadataDType}
    (hone : ∀ (pos : ℕ) (val : MetadataValue), pos ≤ mem.length → readOne pos = .ok val →
      (∃ x, val.typed mem = .ok x) → val.span < 2 ^ 31 → ∃ v, Finds mem pos d val v)
    {count pos : ℕ} {elements : List MetadataValue} (hpos : pos ≤ mem.length)
    (h : readElements readOne count pos = .ok elements)
    (htyped : ∃ xs, typedAll mem elements = .ok xs) (hspan : spanAll elements < 2 ^ 31) :
    ∃ vs, vs.length = count ∧ (∀ v ∈ vs, v.Tagged d) ∧ Holds mem pos (encodeAll vs) ∧
      elements = parsedAllAt pos vs := by
  induction count generalizing pos elements with
  | zero =>
    cases h
    exact ⟨[], rfl, List.forall_mem_nil _, holds_nil hpos, rfl⟩
  | succ count ih =>
    obtain ⟨ele, hele, h⟩ := Outcome.bind_eq_ok.mp h
    obtain ⟨size, hsize, h⟩ := Outcome.bind_eq_ok.mp h
    obtain ⟨rest, hrest, h⟩ := Outcome.bind_eq_ok.mp h
    cases h
    obtain ⟨xs, hxs⟩ := htyped
    obtain ⟨x, hx, hxs⟩ := Outcome.bind_eq_ok.mp hxs
    obtain ⟨xs', hxs', -⟩ := Outcome.bind_eq_ok.mp hxs
    rw [spanAll] at hspan
    obtain ⟨v, hv⟩ := hone pos ele hpos hele ⟨x, hx⟩ (by omega)
    have hlen := hv.span
    obtain ⟨htagged, hholds, rfl⟩ := hv
    -- the value computes its own length, so the next element starts behind it
    have hnext := htagged.measured (by omega) pos
    rw [hsize] at hnext
    cases hnext
    obtain ⟨vs, hcount, hvs, hall, rfl⟩ := ih hholds.le hrest ⟨xs', hxs'⟩ (by omega)
    refine ⟨v :: vs, congrArg (· + 1) hcount, ?_, hholds.append hall, rfl⟩
    exact List.forall_mem_cons.mpr ⟨htagged, hvs⟩

theorem exists_of_primitive {pos : ℕ} {d : MetadataDType} {val : MetadataValue}
    (hd : d.IsPrimitive) (h : MetadataPrimitiveValue.fromPtr mem pos d = .ok val) :
    ∃ v, Finds mem pos d val v := by
  obtain ⟨n, hn, h⟩ := Outcome.bind_eq_ok.mp h
  obtain ⟨v, hv, h⟩ := Outcome.bind_eq_ok.mp h
  cases h
  obtain ⟨hlt, hholds⟩ := holds_of_readNat hd.width_ne_zero hn
  obtain ⟨rfl, rfl⟩ := PrimitiveValue.of_ofBits hd hlt hv
  exact ⟨.primitive v, .primitive v, hholds, rfl⟩

/-- A value that was read and can be seen through its views is a written one. -/
theorem exists_of_fromPtr {fuel pos : ℕ} {d : MetadataDType} {val : MetadataValue}
    (hpos : pos ≤ mem.length) (h : MetadataValue.fromPtr mem fuel pos d = .ok val)
    (htyped : ∃ x, val.typed mem = .ok x) (hspan : val.span < 2 ^ 31) :
    ∃ v, Finds mem pos d val v := by
  induction fuel generalizing pos d val with
  | zero => cases h
  | succ fuel ih =>
    cases d with
    | string =>
      obtain ⟨s, hs, h⟩ := Outcome.bind_eq_ok.mp h
      cases h
      obtain ⟨x, hx⟩ := htyped
      obtain ⟨bs, hbs, -⟩ := Outcome.bind_eq_ok.mp hx
      obtain ⟨hlen, hholds, rfl⟩ := holds_string hs hbs
      exact ⟨.string bs, .string bs hlen, hholds, rfl⟩
    | array =>
      obtain ⟨valType, htype, h⟩ := Outcome.bind_eq_ok.mp h
      obtain ⟨len, hlen, h⟩ := Outcome.bind_eq_ok.mp h
      obtain ⟨elements, helements, h⟩ := Outcome.bind_eq_ok.mp h
      cases h
      obtain ⟨x, hx⟩ := htyped
      obtain ⟨xs, hxs, -⟩ := Outcome.bind_eq_ok.mp hx
      rw [MetadataValue.span] at hspan
      rw [show (pos : ℤ) + 4 = ((pos + 4 : ℕ) : ℤ) by push_cast; rfl] at hlen
      rw [show (pos : ℤ) + 12 = ((pos + 4 + 8 : ℕ) : ℤ) by push_cast; ring] at helements
      obtain ⟨hlt, hcount⟩ := holds_of_readNat (by decide) hlen
      have hle := hcount.le
      rw [length_toBytes] at hle
      obtain ⟨vs, rfl, hvs, hall, rfl⟩ :=
        exists_of_readElements (fun _ _ => ih) hle helements ⟨xs, hxs⟩ (by omega)
      refine ⟨.array valType vs, .array valType vs (by norm_num at hlt; omega) hvs, ?_, rfl⟩
      apply (holds_dtype htype).append
      rw [length_toBytes]
      apply hcount.append
      rwa [length_toBytes]
    | unknown raw hraw =>
      cases h
      exact ⟨.unknown raw hraw, .unknown raw hraw, holds_nil hpos, rfl⟩
    | _ => exact exists_of_primitive trivial h

/-- What was kept of an entry can be read through its views, and the entry fits an `int`. -/
structure Metadata.Sound (mem : Bytes) (met : Metadata) : Prop where
  typed : ∃ e, met.typed mem = .ok e
  span : 8 + met.key.len + 4 + met.val.span < 2 ^ 31

theorem Metadata.Sound.exists_entry {fuel pos : ℕ} {met : Metadata} (h : met.Sound mem)
    (hread : Metadata.fromPtr mem fuel pos = .ok met) :
    ∃ e : Entry, e.value.Tagged e.valType ∧ e.encode.length < 2 ^ 31 ∧ Holds mem pos e.encode ∧
      met = e.parsedAt pos := by
  obtain ⟨key, hkey, hread⟩ := Outcome.bind_eq_ok.mp hread
  obtain ⟨valType, htype, hread⟩ := Outcome.bind_eq_ok.mp hread
  obtain ⟨val, hval, hread⟩ := Outcome.bind_eq_ok.mp hread
  cases hread
  obtain ⟨⟨e, he⟩, hspan⟩ := h
  obtain ⟨bs, hbs, he⟩ := Outcome.bind_eq_ok.mp he
  obtain ⟨x, hx, -⟩ := Outcome.bind_eq_ok.mp he
  obtain ⟨-, hname, rfl⟩ := holds_string hkey hbs
  have hname' := length_encodeString bs
  have hsize := size_string pos (show (encodeString bs).length < 2 ^ 31 by dsimp only at hspan; omega)
  rw [hsize, ← Nat.cast_add] at htype hval
  have htag := holds_dtype htype
  have hle := htag.le
  rw [length_toBytes] at hle
  rw [show ((pos + (encodeString bs).length : ℕ) : ℤ) + 4 =
    ((pos + (encodeString bs).length + 4 : ℕ) : ℤ) by push_cast; rfl] at hval
  obtain ⟨v, hv⟩ := exists_of_fromPtr hle hval ⟨x, hx⟩ (by dsimp only at hspan ⊢; omega)
  have hlen := hv.span
  obtain ⟨htagged, hholds, rfl⟩ := hv
  refine ⟨⟨bs, valType, v⟩, htagged, ?_, ?_, rfl⟩
  · simp only [Entry.encode, List.length_append, length_toBytes]
    dsimp only at hspan
    omega
  · apply hname.append
    apply htag.append
    rwa [length_toBytes]

theorem holds_dimensions {count pos : ℕ} {ds : List UInt64} (hpos : pos ≤ mem.length)
    (h : TensorInfo.readDimensions mem count pos = .ok ds) :
    ds.length = count ∧ Holds mem pos (encodeDimensions ds) := by
  induction count generalizing pos ds with
  | zero =>
    cases h
    exact ⟨rfl, holds_nil hpos⟩
  | succ count ih =>
    obtain ⟨n, hn, h⟩ := Outcome.bind_eq_ok.mp h
    obtain ⟨rest, hrest, h⟩ := Outcome.bind_eq_ok.mp h
    cases h
    obtain ⟨hlt, hholds⟩ := holds_of_readNat (by decide) hn
    have hle := hholds.le
    rw [length_toBytes] at hle
    obtain ⟨hlength, hall⟩ := ih hle hrest
    refine ⟨congrArg (· + 1) hlength, ?_⟩
    rw [encodeDimensions, List.flatMap_cons, UInt64.toNat_ofNat',
      Nat.mod_eq_of_lt (by norm_num at hlt ⊢; omega)]
    apply hholds.append
    rwa [length_toBytes]

/-- What was kept of a tensor info can be read through its pointers, and it fits an `int`. -/
structure TensorInfo.Sound (mem : Bytes) (info : TensorInfo) : Prop where
  typed : ∃ t, info.typed mem = .ok t
  span : 8 + info.name.len + 4 + 8 * info.dimensions.length + 12 < 2 ^ 31

theorem TensorInfo.Sound.exists_desc {pos : ℕ} {info : TensorInfo} (h : info.Sound mem)
    (hread : TensorInfo.fromPtr mem pos = .ok info) :
    ∃ t : TensorDesc, t.encode.length < 2 ^ 31 ∧ Holds mem pos t.encode ∧
      info = t.parsedAt pos := by
  obtain ⟨name, hname, hread⟩ := Outcome.bind_eq_ok.mp hread
  obtain ⟨n, hn, hread⟩ := Outcome.bind_eq_ok.mp hread
  obtain ⟨ds, hds, hread⟩ := Outcome.bind_eq_ok.mp hread
  obtain ⟨_, hcheck, hread⟩ := Outcome.bind_eq_ok.mp hread
  cases hread
  have hlt : n < 2 ^ 31 := by
    by_contra hlarge
    rw [checkTurns, if_neg hlarge] at hcheck
    cases hcheck
  rw [turns, min_eq_left hlt.le] at hds
  obtain ⟨⟨t, ht⟩, hspan⟩ := h
  obtain ⟨bs, hbs, ht⟩ := Outcome.bind_eq_ok.mp ht
  obtain ⟨_, -, ht⟩ := Outcome.bind_eq_ok.mp ht
  obtain ⟨dtype, hdtype, ht⟩ := Outcome.bind_eq_ok.mp ht
  obtain ⟨offset, hoffset, -⟩ := Outcome.bind_eq_ok.mp ht
  obtain ⟨-, hholds, rfl⟩ := holds_string hname hbs
  have hlen := length_encodeString bs
  dsimp only at hspan hn hds hdtype hoffset
  have hsize := size_string pos (show (encodeString bs).length < 2 ^ 31 by omega)
  rw [hsize, ← Nat.cast_add] at hn hds hdtype hoffset
  obtain ⟨-, hdim⟩ := holds_of_readNat (by decide) hn
  have hle := hdim.le
  rw [length_toBytes] at hle
  rw [show ((pos + (encodeString bs).length : ℕ) : ℤ) + 4 =
    ((pos + (encodeString bs).length + 4 : ℕ) : ℤ) by push_cast; rfl] at hds hdtype hoffset
  obtain ⟨rfl, hdims⟩ := holds_dimensions hle hds
  rw [show ((pos + (encodeString bs).length + 4 : ℕ) : ℤ) + 8 * (ds.length : ℤ) =
    ((pos + (encodeString bs).length + 4 + 8 * ds.length : ℕ) : ℤ) by push_cast; rfl]
    at hdtype hoffset
  rw [show ((pos + (encodeString bs).length + 4 + 8 * ds.length : ℕ) : ℤ) + 4 =
    ((pos + (encodeString bs).length + 4 + 8 * ds.length + 4 : ℕ) : ℤ) by push_cast; rfl] at hoffset
  obtain ⟨hdtypeLt, hdtype⟩ := holds_of_readNat (by decide) hdtype
  obtain ⟨hoffsetLt, hoffset⟩ := holds_of_readNat (by decide) hoffset
  have hdtypeEq : (UInt32.ofNat dtype).toNat = dtype := by
    rw [UInt32.toNat_ofNat', Nat.mod_eq_of_lt (by norm_num at hdtypeLt ⊢; omega)]
  have hoffsetEq : (UInt64.ofNat offset).toNat = offset := by
    rw [UInt64.toNat_ofNat', Nat.mod_eq_of_lt (by norm_num at hoffsetLt ⊢; omega)]
  refine ⟨⟨bs, ds, UInt32.ofNat dtype, UInt64.ofNat offset⟩, ?_, ?_, ?_⟩
  · simp only [TensorDesc.encode, List.length_append, length_toBytes, length_encodeDimensions]
    omega
  · rw [TensorDesc.encode, hdtypeEq, hoffsetEq]
    apply hholds.append
    apply hdim.append
    rw [length_toBytes]
    apply hdims.append
    rw [length_encodeDimensions]
    apply hdtype.append
    rwa [length_toBytes]
  · rw [TensorDesc.parsedAt, hsize]
    push_cast
    rfl

def EntriesSound (mem : Bytes) (fuel : ℕ) : ℕ → ℤ → Prop
  | 0, _ => True
  | count + 1, p => ∀ met size, Metadata.fromPtr mem fuel p = .ok met → met.size = .ok size →
      met.Sound mem ∧ EntriesSound mem fuel count (p + size)

def TensorsSound (mem : Bytes) : ℕ → ℤ → Prop
  | 0, _ => True
  | count + 1, p => ∀ info, TensorInfo.fromPtr mem p = .ok info →
      info.Sound mem ∧ TensorsSound mem count (p + info.size)

theorem exists_of_metadataLoop {fuel count pos : ℕ} {m : MetadataMap} {r : MetadataMap × ℤ}
    (hfuel : mem.length < fuel) (hpos : pos ≤ mem.length)
    (h : ggufMetadataLoop mem fuel count pos m = .ok r) (hsound : EntriesSound mem fuel count pos) :
    ∃ es : List Entry, es.length = count ∧ (∀ e ∈ es, e.Readable fuel) ∧
      Holds mem pos (es.flatMap Entry.encode) := by
  induction count generalizing pos m with
  | zero => exact ⟨[], rfl, List.forall_mem_nil _, holds_nil hpos⟩
  | succ count ih =>
    obtain ⟨met, hmet, h⟩ := Outcome.bind_eq_ok.mp h
    obtain ⟨size, hsize, h⟩ := Outcome.bind_eq_ok.mp h
    obtain ⟨key, -, h⟩ := Outcome.bind_eq_ok.mp h
    obtain ⟨hmetSound, hrest⟩ := hsound met size hmet hsize
    obtain ⟨e, htagged, hlen, hholds, rfl⟩ := hmetSound.exists_entry hmet
    have hle := hholds.le
    have hdepth : e.encode.length < fuel := by omega
    have hown := (Entry.fromPtr_eq htagged hlen hdepth hholds).2.1
    rw [hsize] at hown
    cases hown
    obtain ⟨es, rfl, hes, hall⟩ := ih hle h hrest
    refine ⟨e :: es, rfl, List.forall_mem_cons.mpr ⟨⟨htagged, hlen, hdepth⟩, hes⟩, ?_⟩
    rw [List.flatMap_cons]
    exact hholds.append hall

theorem exists_of_tensorsLoop {count pos : ℕ} {m : TensorMap} {r : TensorMap × ℤ}
    (hpos : pos ≤ mem.length) (h : ggufTensorsLoop mem count pos m = .ok r)
    (hsound : TensorsSound mem count pos) :
    ∃ ts : List TensorDesc, ts.length = count ∧ (∀ t ∈ ts, t.encode.length < 2 ^ 31) ∧
      Holds mem pos (ts.flatMap TensorDesc.encode) := by
  induction count generalizing pos m with
  | zero => exact ⟨[], rfl, List.forall_mem_nil _, holds_nil hpos⟩
  | succ count ih =>
    obtain ⟨info, hinfo, h⟩ := Outcome.bind_eq_ok.mp h
    obtain ⟨name, -, h⟩ := Outcome.bind_eq_ok.mp h
    obtain ⟨hinfoSound, hrest⟩ := hsound info hinfo
    obtain ⟨t, hlen, hholds, rfl⟩ := hinfoSound.exists_desc hinfo
    rw [(TensorDesc.fromPtr_eq hlen hholds).2.1, ← Nat.cast_add] at h hrest
    obtain ⟨ts, rfl, hts, hall⟩ := ih hholds.le h hrest
    refine ⟨t :: ts, rfl, List.forall_mem_cons.mpr ⟨hlen, hts⟩, ?_⟩
    rw [List.flatMap_cons]
    exact hholds.append hall

theorem exists_typedAll {vs : List Value}
    (hvs : ∀ v ∈ vs, ∀ pos, Holds mem pos v.encode → ∃ x, (v.parsedAt pos).typed mem = .ok x)
    {pos : ℕ} (h : Holds mem pos (encodeAll vs)) :
    ∃ xs, typedAll mem (parsedAllAt pos vs) = .ok xs := by
  induction vs generalizing pos with
  | nil => exact ⟨[], rfl⟩
  | cons v vs ih =>
    rw [encodeAll] at h
    obtain ⟨x, hx⟩ := hvs v List.mem_cons_self pos h.left
    obtain ⟨xs, hxs⟩ := ih (fun y hy => hvs y (List.mem_cons_of_mem v hy)) h.right
    exact ⟨x :: xs, by rw [parsedAllAt, typedAll, hx, Outcome.ok_bind, hxs, Outcome.ok_bind]⟩

theorem Value.Tagged.exists_typed {v : Value} {d : MetadataDType} (h : v.Tagged d) {pos : ℕ}
    (hmem : Holds mem pos v.encode) : ∃ x, (v.parsedAt pos).typed mem = .ok x := by
  induction h generalizing pos with
  | primitive v => exact ⟨.primitive v, rfl⟩
  | string bs =>
    rw [encode] at hmem
    exact ⟨.string bs, by rw [parsedAt, MetadataValue.typed, toString_string hmem, Outcome.ok_bind]⟩
  | array valType elements _ _ ih =>
    rw [encode] at hmem
    have helements := hmem.right.right
    rw [length_toBytes, length_toBytes] at helements
    obtain ⟨xs, hxs⟩ := exists_typedAll (fun x hx pos hpos => ih x hx hpos) helements
    exact ⟨.array valType xs, by rw [parsedAt, MetadataValue.typed, hxs, Outcome.ok_bind]⟩
  | unknown raw h => exact ⟨.primitive (.uint8 0), rfl⟩

theorem Entry.Readable.sound {fuel pos : ℕ} {e : Entry} (he : e.Readable fuel)
    (h : Holds mem pos e.encode) : (e.parsedAt pos).Sound mem := by
  have hlen := he.size
  rw [encode] at h
  have hval := h.right.right
  rw [length_toBytes] at hval
  obtain ⟨x, hx⟩ := he.tagged.exists_typed hval
  constructor
  · refine ⟨⟨e.key, e.valType, x⟩, ?_⟩
    rw [Metadata.typed, Metadata.keyString, parsedAt, toString_string h.left, Outcome.ok_bind, hx,
      Outcome.ok_bind]
  · simp only [encode, List.length_append, length_toBytes, length_encodeString] at hlen
    rw [parsedAt, he.tagged.span_parsedAt]
    dsimp only
    omega

theorem entriesSound_of_holds {fuel pos : ℕ} {es : List Entry} (hes : ∀ e ∈ es, e.Readable fuel)
    (h : Holds mem pos (es.flatMap Entry.encode)) : EntriesSound mem fuel es.length pos := by
  induction es generalizing pos with
  | nil => exact trivial
  | cons e es ih =>
    rw [List.flatMap_cons] at h
    have he := hes e List.mem_cons_self
    obtain ⟨hread, hsize, -⟩ := Entry.fromPtr_eq he.tagged he.size he.depth h.left
    intro met size hmet hmetSize
    cases hread.symm.trans hmet
    cases hsize.symm.trans hmetSize
    refine ⟨he.sound h.left, ?_⟩
    rw [← Nat.cast_add]
    exact ih (fun x hx => hes x (List.mem_cons_of_mem e hx)) h.right

theorem tensorsSound_of_holds {pos : ℕ} {ts : List TensorDesc}
    (hts : ∀ t ∈ ts, t.encode.length < 2 ^ 31) (h : Holds mem pos (ts.flatMap TensorDesc.encode)) :
    TensorsSound mem ts.length pos := by
  induction ts generalizing pos with
  | nil => exact trivial
  | cons t ts ih =>
    rw [List.flatMap_cons] at h
    have hlen := hts t List.mem_cons_self
    obtain ⟨hread, hsize, -⟩ := TensorDesc.fromPtr_eq hlen h.left
    intro info hinfo
    cases hread.symm.trans hinfo
    rw [hsize, ← Nat.cast_add]
    refine ⟨⟨⟨_, TensorDesc.typed_parsedAt hlen h.left⟩, ?_⟩,
      ih (fun x hx => hts x (List.mem_cons_of_mem t hx)) h.right⟩
    simp only [TensorDesc.encode, List.length_append, length_toBytes, length_encodeString,
      length_encodeDimensions] at hlen
    rw [TensorDesc.parsedAt]
    dsimp only
    omega

/-- A file of entries and tensor infos behind a header that counts them. -/
structure WellFormed (mem : Bytes) (es : List Entry) (ts : List TensorDesc) : Prop where
  kvCount : ∃ n, readNat mem 16 8 = .ok n ∧ (toInt n).toNat = es.length
  tensorCount : readNat mem 8 8 = .ok ts.length
  entries : Holds mem headerSize (es.flatMap Entry.encode)
  infos : Holds mem (headerSize + (es.flatMap Entry.encode).length) (ts.flatMap TensorDesc.encode)
  tagged : ∀ e ∈ es, e.value.Tagged e.valType
  entrySize : ∀ e ∈ es, e.encode.length < 2 ^ 31
  infoSize : ∀ t ∈ ts, t.encode.length < 2 ^ 31
  counted : ts.length < 2 ^ 31

def loaded (es : List Entry) (ts : List TensorDesc) : MetadataMap × TensorMap × ℤ :=
  (insertAll Entry.key (fun _ => none) (placed Entry.encode Entry.parsedAt headerSize es),
    insertAll TensorDesc.name (fun _ => none) (placed TensorDesc.encode TensorDesc.parsedAt
      (headerSize + (es.flatMap Entry.encode).length) ts),
    (entriesEnd es ts : ℤ))

/-- The loader returns, and everything it has read is sound. -/
structure Accepted (mem : Bytes) (fuel : ℕ) (r : MetadataMap × TensorMap × ℤ) : Prop where
  read : readEntries mem fuel = .ok r
  entries : ∀ n count, readNat mem 16 8 = .ok n → (toInt n).toNat = count →
    EntriesSound mem fuel count headerSize
  infos : ∀ n m metadata cur, readNat mem 16 8 = .ok n → readNat mem 8 8 = .ok m →
    ggufMetadata mem fuel headerSize (toInt n) = .ok (metadata, cur) → TensorsSound mem m cur

variable {fuel : ℕ} {es : List Entry} {ts : List TensorDesc}

theorem WellFormed.readable (h : WellFormed mem es ts) (hfuel : mem.length < fuel) :
    ∀ e ∈ es, e.Readable fuel := by
  intro e he
  have hle := h.entries.le
  have hmem : e.encode.length ≤ (es.flatMap Entry.encode).length := by
    rw [List.length_flatMap]
    exact List.le_sum_of_mem (List.mem_map_of_mem he)
  exact ⟨h.tagged e he, h.entrySize e he, by omega⟩

theorem WellFormed.metadata_eq (h : WellFormed mem es ts) (hfuel : mem.length < fuel) {n : ℕ}
    (hn : (toInt n).toNat = es.length) : ggufMetadata mem fuel headerSize (toInt n) =
      .ok ((loaded es ts).1, ((headerSize + (es.flatMap Entry.encode).length : ℕ) : ℤ)) := by
  rw [ggufMetadata, hn, ggufMetadataLoop_eq (h.readable hfuel) h.entries]
  rfl

theorem WellFormed.accepted (h : WellFormed mem es ts) (hfuel : mem.length < fuel) :
    Accepted mem fuel (loaded es ts) := by
  obtain ⟨n, hread, hn⟩ := h.kvCount
  constructor
  · rw [readEntries, hread, Outcome.ok_bind, h.metadata_eq hfuel hn, Outcome.ok_bind,
      h.tensorCount, Outcome.ok_bind, ggufTensorsInfo_eq h.counted h.infoSize h.infos,
      Outcome.ok_bind]
    rfl
  · intro n' count hn' hcount
    cases hread.symm.trans hn'
    cases hn.symm.trans hcount
    exact entriesSound_of_holds (h.readable hfuel) h.entries
  · intro n' m metadata cur hn' hm hmetadata
    cases hread.symm.trans hn'
    cases h.tensorCount.symm.trans hm
    cases (h.metadata_eq hfuel hn).symm.trans hmetadata
    exact tensorsSound_of_holds h.infoSize h.infos

theorem Accepted.exists_wellFormed {r : MetadataMap × TensorMap × ℤ} (h : Accepted mem fuel r)
    (hfuel : mem.length < fuel) : ∃ es ts, WellFormed mem es ts := by
  obtain ⟨n, hn, hread⟩ := Outcome.bind_eq_ok.mp h.read
  obtain ⟨⟨metadata, cur⟩, hmetadata, hread⟩ := Outcome.bind_eq_ok.mp hread
  obtain ⟨m, hm, hread⟩ := Outcome.bind_eq_ok.mp hread
  obtain ⟨tensors, htensors, -⟩ := Outcome.bind_eq_ok.mp hread
  obtain ⟨r, hloop, hcheck⟩ := Outcome.bind_eq_ok.mp htensors
  have hcounted : m < 2 ^ 31 := by
    by_contra hlarge
    rw [TensorInfo.checkTurns, if_neg hlarge] at hcheck
    cases hcheck
  rw [TensorInfo.turns, min_eq_left hcounted.le] at hloop
  have hinfosSound := h.infos n m metadata cur hn hm hmetadata
  obtain ⟨count, hcount⟩ : ∃ count, (toInt n).toNat = count := ⟨_, rfl⟩
  have hentriesSound := h.entries n count hn hcount
  rw [ggufMetadata, hcount] at hmetadata
  have hheader : headerSize ≤ mem.length := by
    rw [← Nat.cast_ofNat] at hn
    have hle := (holds_of_readNat (by decide) hn).2.le
    rwa [length_toBytes] at hle
  obtain ⟨es, rfl, hreadable, hentries⟩ :=
    exists_of_metadataLoop hfuel hheader hmetadata hentriesSound
  rw [ggufMetadataLoop_eq hreadable hentries] at hmetadata
  cases hmetadata
  obtain ⟨ts, rfl, hts, hinfos⟩ := exists_of_tensorsLoop hentries.le hloop hinfosSound
  exact ⟨es, ts, ⟨n, hn, hcount⟩, hm, hentries, hinfos, fun e he => (hreadable e he).tagged,
    fun e he => (hreadable e he).size, hts, hcounted⟩

/-- The loader accepts exactly the written files. Where it returns and all that it has read lies in
the file and fits an `int`, the file is made of entries and tensor infos of the format, keys that
come twice and unknown tags included, and the result is that of the round trip. -/
theorem accepted_iff_wellFormed (hfuel : mem.length < fuel) (r : MetadataMap × TensorMap × ℤ) :
    Accepted mem fuel r ↔ ∃ es ts, WellFormed mem es ts ∧ r = loaded es ts := by
  constructor
  · intro h
    obtain ⟨es, ts, hes⟩ := h.exists_wellFormed hfuel
    exact ⟨es, ts, hes, Except.ok.inj (h.read.symm.trans (hes.accepted hfuel).read)⟩
  · rintro ⟨es, ts, hes, rfl⟩
    exact hes.accepted hfuel

theorem wellFormed_fileBytes (version : UInt32) (rest : Bytes) (hes : es.length < 2 ^ 31)
    (hts : ts.length < 2 ^ 31) (htagged : ∀ e ∈ es, e.value.Tagged e.valType)
    (hsize : ∀ e ∈ es, e.encode.length < 2 ^ 31) (htsize : ∀ t ∈ ts, t.encode.length < 2 ^ 31) :
    WellFormed (fileBytes version es ts rest) es ts := by
  obtain ⟨htc, hkv, hentries, hinfos⟩ := holds_fileBytes version es ts rest
  have hkv' := hkv.readNat_eq (by norm_num; omega)
  have htc' := htc.readNat_eq (by norm_num; omega)
  rw [Nat.cast_ofNat] at hkv' htc'
  refine ⟨⟨es.length, hkv', ?_⟩, htc', hentries, hinfos, htagged, hsize, htsize, hts⟩
  rw [toInt_of_lt hes, Int.toNat_natCast]

/-- A key that comes twice, the second time under an unknown tag. -/
def repeatedKey : List Entry :=
  [⟨[107], .uint32, .primitive (.uint32 7)⟩, unknownEntry]

theorem accepted_iff_wellFormed_repeatedKey :
    Accepted (fileBytes 3 repeatedKey sampleTensors [0])
      ((fileBytes 3 repeatedKey sampleTensors [0]).length + 1) (loaded repeatedKey sampleTensors) := by
  have htagged : ∀ e ∈ repeatedKey, e.value.Tagged e.valType := by
    intro e he
    rcases List.mem_cons.mp he with rfl | he
    · exact .primitive (.uint32 7)
    · rw [List.mem_singleton.mp he]
      exact .unknown 13 (by decide)
  rw [accepted_iff_wellFormed (Nat.lt_add_one _)]
  exact ⟨_, _, wellFormed_fileBytes 3 [0] (by decide) (by decide) htagged (by decide +kernel)
    (by decide +kernel), rfl⟩

end ZInferLM.Gguf
