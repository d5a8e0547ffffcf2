/-
Neoip/Amf0.lean

Variables in the action message format: `amf0_build_t` and `amf0_parse_t`.

A map is written as its keys, each with its length, and its values; an empty
key and the byte of `ENDOFOBJECT` end it.  A value never begins with that byte,
so that a map may have the empty key.  A length is cast to a `uint16_t`, with
no check.

A reading ends with a value, with the exception `serial_except_t`, or with an
assertion which fails, if these are compiled in (`dbg_assert`): a string which
is cut, and a key which is in the map already.

Main result: `parser_toAmf0`, what is built is read back and what follows it
is left, when the keys are shorter than 64 KiB.
-/
import Neoip.GenId
import Neoip.Omap

namespace Neoip

/-! ### Variables -/

/-- `dvar_t`, less the integers, which the format has not.  A double is its bits, and `null` is
the variable which has no type. -/
inductive Amf0Dvar
  | null
  | double (bits : UInt64)
  | string (str : Datum)
  | boolean (value : Bool)
  | nil
  | array (arr : List Amf0Dvar)
  | map (inmap : List (Datum × Amf0Dvar))

namespace Amf0Dvar

mutual

/-- Doubles, strings shorter than 64 KiB, booleans, nil, and maps of these, whose keys
increase. -/
def Buildable : Amf0Dvar → Prop
  | .null => False
  | .double _ => True
  | .string str => str.length < 2 ^ 16
  | .boolean _ => True
  | .nil => True
  | .array _ => False
  | .map inmap => (inmap.map Prod.fst).Pairwise (· < ·) ∧ BuildableMap inmap

def BuildableMap : List (Datum × Amf0Dvar) → Prop
  | [] => True
  | (_, dvar) :: inmap => dvar.Buildable ∧ BuildableMap inmap

end

mutual

/-- Every key, at any depth, is shorter than 64 KiB. -/
def ShortKeys : Amf0Dvar → Prop
  | .array arr => ShortKeysArr arr
  | .map inmap => ShortKeysMap inmap
  | _ => True

def ShortKeysArr : List Amf0Dvar → Prop
  | [] => True
  | dvar :: arr => dvar.ShortKeys ∧ ShortKeysArr arr

def ShortKeysMap : List (Datum × Amf0Dvar) → Prop
  | [] => True
  | (key, dvar) :: inmap => key.length < 2 ^ 16 ∧ dvar.ShortKeys ∧ ShortKeysMap inmap

end

end Amf0Dvar

/-- What comes of reading: a value and what follows it, an exception, an assertion which failed;
`unended` when the fuel is used up. -/
inductive Amf0Read (α : Type)
  | ok (val : α) (rest : Datum)
  | raised (what : String)
  | aborted
  | unended

/-- Read on. -/
def Amf0Read.bind {α β : Type} (r : Amf0Read α) (f : α → Datum → Amf0Read β) : Amf0Read β :=
  match r with
  | .ok val rest => f val rest
  | .raised what => .raised what
  | .aborted => .aborted
  | .unended => .unended

@[simp] theorem Amf0Read.bind_ok {α β : Type} (val : α) (rest : Datum)
    (f : α → Datum → Amf0Read β) : (Amf0Read.ok val rest).bind f = f val rest := rfl

@[simp] theorem Amf0Read.bind_raised {α β : Type} (what : String)
    (f : α → Datum → Amf0Read β) : (Amf0Read.raised what).bind f = .raised what := rfl

namespace Amf0

/-! ### `amf0_build_t` -/

/-- A length and the bytes, as a string and as a key. -/
def sized (str : Datum) : Datum := GenId.bytesOf 2 (str.length % 2 ^ 16) ++ str

mutual

/-- `to_amf0`.  The types of the last case are asserted never to come. -/
def toAmf0 : Amf0Dvar → Datum
  | .double bits => 0x00 :: GenId.bytesOf 8 bits.toNat
  | .string str => 0x02 :: sized str
  | .boolean value => [0x01, if value then 1 else 0]
  | .nil => [0x05]
  | .map inmap => 0x03 :: (toAmf0Map inmap ++ (GenId.bytesOf 2 0 ++ [0x09]))
  | _ => []

def toAmf0Map : List (Datum × Amf0Dvar) → Datum
  | [] => []
  | (key, item) :: inmap => sized key ++ (toAmf0 item ++ toAmf0Map inmap)

end

/-! ### `amf0_parse_t` -/

/-- `operator >>` of `n` bytes. -/
def readBytes (n : ℕ) (what : String) (b : Datum) : Amf0Read Datum :=
  if b.length < n then .raised what else .ok (b.take n) (b.drop n)

def readUint8 (b : Datum) : Amf0Read ℕ :=
  (readBytes 1 "uint8_t Payload Too Short" b).bind fun bytes b => .ok (GenId.ofBytes bytes) b

def readUint16 (b : Datum) : Amf0Read ℕ :=
  (readBytes 2 "uint16_t Payload Too Short" b).bind fun bytes b => .ok (GenId.ofBytes bytes) b

def readUint32 (b : Datum) : Amf0Read ℕ :=
  (readBytes 4 "uint32_t Payload Too Short" b).bind fun bytes b => .ok (GenId.ofBytes bytes) b

/-- A double goes through the `uint64_t` with the same bits. -/
def readDouble (b : Datum) : Amf0Read Amf0Dvar :=
  (readBytes 8 "uint64_t Payload Too Short" b).bind fun bytes b =>
    .ok (.double (UInt64.ofNat (GenId.ofBytes bytes))) b

/-- The name of a type which is not read. -/
def typeName (amf0_type : ℕ) : String := if amf0_type = 0x09 then "ENDOFOBJECT" else ""

-- Whether the assertions are compiled in.
variable (dbg_assert : Bool)

/-- `head_consume`. -/
def headConsume (len : ℕ) (b : Datum) : Amf0Read Datum :=
  if b.length < len then
    if dbg_assert then .aborted else .raised "ByteArray too short."
  else .ok (b.take len) (b.drop len)

/-- `dvar_map_t::insert`. -/
def mapInsert (key : Datum) (value : Amf0Dvar) (inmap : List (Datum × Amf0Dvar)) :
    List (Datum × Amf0Dvar) :=
  Omap.insert (fun k k' => decide (k < k')) key value inmap

mutual

def parser : ℕ → Datum → Amf0Read Amf0Dvar
  | 0, _ => .unended
  | fuel + 1, b =>
    (readUint8 b).bind fun amf0_type b =>
      if amf0_type = 0x00 then readDouble b
      else if amf0_type = 0x01 then
        (readUint8 b).bind fun value b => .ok (.boolean (value ≠ 0)) b
      else if amf0_type = 0x02 then
        (readUint16 b).bind fun str_size b =>
          (headConsume dbg_assert str_size b).bind fun str_data b => .ok (.string str_data) b
      else if amf0_type = 0x03 then parseMap fuel [] b
      else if amf0_type = 0x05 then .ok .nil b
      else if amf0_type = 0x06 then .ok .null b
      else if amf0_type = 0x08 then (readUint32 b).bind fun _ b => parseMap fuel [] b
      else if amf0_type = 0x0a then (readUint32 b).bind fun nb_item b => parseArr fuel nb_item [] b
      else if amf0_type = 0x0b then
        (readDouble b).bind fun from_epoch_ms b =>
          (readUint16 b).bind fun _ b => .ok from_epoch_ms b
      else .raised ("unparse amf0_type " ++ typeName amf0_type ++ "... given up")

/-- The loop of the cases `OBJECT` and `MIXEDARRAY`. -/
def parseMap : ℕ → List (Datum × Amf0Dvar) → Datum → Amf0Read Amf0Dvar
  | 0, _, _ => .unended
  | fuel + 1, inmap, b =>
    if b.isEmpty then .ok (.map inmap) b else
    (readUint16 b).bind fun key_size b =>
      (headConsume dbg_assert key_size b).bind fun key_data b =>
        if key_size = 0 ∧ b.head? = some 0x09 then .ok (.map inmap) b.tail
        else
          (parser fuel b).bind fun value b =>
            if dbg_assert && (Omap.find key_data inmap).isSome then .aborted
            else parseMap fuel (mapInsert key_data value inmap) b

/-- The loop of the case `ARRAY`, with the number of items which are left. -/
def parseArr : ℕ → ℕ → List Amf0Dvar → Datum → Amf0Read Amf0Dvar
  | 0, _, _, _ => .unended
  | _ + 1, 0, arr, b => .ok (.array arr) b
  | fuel + 1, nb_item + 1, arr, b =>
    (parser fuel b).bind fun item b => parseArr fuel nb_item (arr ++ [item]) b

end

/-- `parser`: each turn of the loops reads a byte, so that the number of bytes is enough fuel. -/
def parse (b : Datum) : Amf0Read Amf0Dvar := parser dbg_assert (b.length + 1) b

/-- `amf_to_dvar`, which reports the exception. -/
def amfToDvar (b : Datum) : Amf0Read Amf0Dvar :=
  match parse dbg_assert b with
  | .raised what => .raised ("failed to parse flv AMF data due to " ++ what)
  | read => read

/-! ### What is written is read -/

section Reading

variable {dbg_assert} {b bytes rest str key : Datum} {n : ℕ} {what : String} {value : Amf0Dvar}
  {inmap : List (Datum × Amf0Dvar)}

theorem readBytes_append (h : bytes.length = n) :
    readBytes n what (bytes ++ rest) = .ok bytes rest := by
  have hle : ¬ (bytes ++ rest).length < n := by
    rw [List.length_append, h]
    exact Nat.not_lt.2 (Nat.le_add_right n _)
  rw [readBytes, if_neg hle, List.take_left' h, List.drop_left' h]

theorem readUint8_cons (c : UInt8) (b : Datum) : readUint8 (c :: b) = .ok c.toNat b := by
  have hread : readBytes 1 "uint8_t Payload Too Short" ([c] ++ b) = .ok [c] b :=
    readBytes_append rfl
  rw [List.singleton_append] at hread
  have hbyte : GenId.ofBytes [c] = c.toNat := Nat.zero_add _
  rw [readUint8, hread, Amf0Read.bind_ok, hbyte]

theorem readUint16_bytesOf (n : ℕ) (rest : Datum) :
    readUint16 (GenId.bytesOf 2 n ++ rest) = .ok (n % 2 ^ 16) rest := by
  rw [readUint16, readBytes_append (GenId.length_bytesOf 2 n), Amf0Read.bind_ok,
    GenId.ofBytes_bytesOf, show 256 ^ 2 = 2 ^ 16 from rfl]

theorem readDouble_bytesOf (bits : UInt64) (rest : Datum) :
    readDouble (GenId.bytesOf 8 bits.toNat ++ rest) = .ok (.double bits) rest := by
  have hlt : bits.toNat % 256 ^ 8 = bits.toNat := Nat.mod_eq_of_lt bits.toNat_lt
  rw [readDouble, readBytes_append (GenId.length_bytesOf 8 _), Amf0Read.bind_ok,
    GenId.ofBytes_bytesOf, hlt, UInt64.ofNat_toNat]

theorem readUint16_sized (hlen : str.length < 2 ^ 16) :
    readUint16 (sized str ++ rest) = .ok str.length (str ++ rest) := by
  rw [sized, List.append_assoc, readUint16_bytesOf, Nat.mod_mod, Nat.mod_eq_of_lt hlen]

theorem headConsume_append (str rest : Datum) :
    headConsume dbg_assert str.length (str ++ rest) = .ok str rest := by
  have hle : ¬ (str ++ rest).length < str.length := by
    rw [List.length_append]
    exact Nat.not_lt.2 (Nat.le_add_right _ _)
  rw [headConsume, if_neg hle, List.take_left, List.drop_left]

theorem length_sized (str : Datum) : (sized str).length = str.length + 2 := by
  rw [sized, List.length_append, GenId.length_bytesOf, Nat.add_comm]

theorem find_of_lt (h : ∀ k ∈ inmap.map Prod.fst, k < key) : Omap.find key inmap = none := by
  refine Omap.find_eq_none.2 fun a ha => ?_
  exact absurd (h key (List.mem_map_of_mem ha)) (List.lt_irrefl key)

/-- A key which is greater than those before it goes behind them. -/
theorem mapInsert_of_lt (h : ∀ k ∈ inmap.map Prod.fst, k < key) :
    mapInsert key value inmap = inmap ++ [(key, value)] := by
  rw [mapInsert, Omap.insert, find_of_lt h]
  induction inmap with
  | nil => rfl
  | cons e inmap ih =>
    have he : e.1 < key := h e.1 List.mem_cons_self
    have hnot : ¬ decide (key < e.1) = true := by simpa using List.lt_asymm he
    show Omap.place _ key value (e :: inmap) = _
    rw [Omap.place, if_neg hnot]
    exact congrArg (e :: ·) (ih fun k hk => h k (List.mem_cons_of_mem _ hk))

/-- No value begins with the byte which ends a map. -/
theorem head_toAmf0 {dvar : Amf0Dvar} (h : dvar.Buildable) (rest : Datum) :
    (toAmf0 dvar ++ rest).head? ≠ some 0x09 := by
  cases dvar with
  | null => exact absurd h (by simp [Amf0Dvar.Buildable])
  | array arr => exact absurd h (by simp [Amf0Dvar.Buildable])
  | double bits => simp [toAmf0]
  | string str => simp [toAmf0]
  | boolean value => simp [toAmf0]
  | nil => simp [toAmf0]
  | map inmap => simp [toAmf0]

theorem length_toAmf0_pos {dvar : Amf0Dvar} (h : dvar.Buildable) : 0 < (toAmf0 dvar).length := by
  cases dvar with
  | null => exact absurd h (by simp [Amf0Dvar.Buildable])
  | array arr => exact absurd h (by simp [Amf0Dvar.Buildable])
  | double bits => simp [toAmf0]
  | string str => simp [toAmf0]
  | boolean value => simp [toAmf0]
  | nil => simp [toAmf0]
  | map inmap => simp [toAmf0]

end Reading

mutual

/-- **What is built is read back**, and what follows it is left. -/
theorem parser_toAmf0 : ∀ (dvar : Amf0Dvar) (rest : Datum) (fuel : ℕ), dvar.Buildable →
    dvar.ShortKeys → (toAmf0 dvar).length ≤ fuel →
      parser dbg_assert fuel (toAmf0 dvar ++ rest) = .ok dvar rest
  | dvar, rest, 0, hbuild, _, hfuel => by
    have := length_toAmf0_pos hbuild
    omega
  | .null, _, _ + 1, hbuild, _, _ => absurd hbuild (by simp [Amf0Dvar.Buildable])
  | .array _, _, _ + 1, hbuild, _, _ => absurd hbuild (by simp [Amf0Dvar.Buildable])
  | .double bits, rest, fuel + 1, _, _, _ => by
    rw [toAmf0, List.cons_append, parser, readUint8_cons]
    exact readDouble_bytesOf bits rest
  | .string str, rest, fuel + 1, hbuild, _, _ => by
    rw [Amf0Dvar.Buildable] at hbuild
    rw [toAmf0, List.cons_append, parser, readUint8_cons]
    show ((readUint16 (sized str ++ rest)).bind fun str_size b =>
      (headConsume dbg_assert str_size b).bind fun str_data b =>
        Amf0Read.ok (Amf0Dvar.string str_data) b) = _
    rw [readUint16_sized hbuild, Amf0Read.bind_ok, headConsume_append, Amf0Read.bind_ok]
  | .boolean value, rest, fuel + 1, _, _, _ => by
    rw [toAmf0, List.cons_append, parser, readUint8_cons]
    cases value
    · rfl
    · rfl
  | .nil, rest, fuel + 1, _, _, _ => by
    rw [toAmf0, List.cons_append, parser, readUint8_cons]
    rfl
  | .map inmap, rest, fuel + 1, hbuild, hshort, hfuel => by
    rw [Amf0Dvar.Buildable] at hbuild
    rw [Amf0Dvar.ShortKeys] at hshort
    rw [toAmf0, List.length_cons, List.length_append] at hfuel
    rw [toAmf0, List.cons_append, parser, readUint8_cons]
    show parseMap dbg_assert fuel [] _ = _
    rw [List.append_assoc, List.append_assoc]
    exact parseMap_toAmf0Map inmap [] rest fuel hbuild.1 hbuild.2 hshort
      (by simp only [List.length_append, GenId.length_bytesOf, List.length_singleton] at hfuel
          omega)

theorem parseMap_toAmf0Map : ∀ (inmap before : List (Datum × Amf0Dvar)) (rest : Datum) (fuel : ℕ),
    ((before ++ inmap).map Prod.fst).Pairwise (· < ·) → Amf0Dvar.BuildableMap inmap →
      Amf0Dvar.ShortKeysMap inmap → (toAmf0Map inmap).length + 1 ≤ fuel →
        parseMap dbg_assert fuel before (toAmf0Map inmap ++ (GenId.bytesOf 2 0 ++ ([0x09] ++ rest)))
          = .ok (.map (before ++ inmap)) rest
  | [], before, rest, fuel + 1, _, _, _, _ => by
    have hne : ¬ (GenId.bytesOf 2 0 ++ ([0x09] ++ rest)).isEmpty = true := by
      simp [GenId.bytesOf]
    rw [toAmf0Map, List.nil_append, List.append_nil, parseMap, if_neg hne, readUint16_bytesOf]
    have hkey : headConsume dbg_assert ([] : Datum).length ([] ++ ([0x09] ++ rest))
        = .ok [] ([0x09] ++ rest) := headConsume_append [] ([0x09] ++ rest)
    rw [List.nil_append, List.length_nil] at hkey
    have hend : (0 : ℕ) = 0 ∧ (([0x09] : Datum) ++ rest).head? = some 0x09 := ⟨rfl, rfl⟩
    rw [Amf0Read.bind_ok, Nat.zero_mod, hkey, Amf0Read.bind_ok, if_pos hend]
    rfl
  | (key, item) :: inmap, before, rest, fuel + 1, hsorted, hbuild, hshort, hfuel => by
    rw [Amf0Dvar.BuildableMap] at hbuild
    rw [Amf0Dvar.ShortKeysMap] at hshort
    rw [toAmf0Map, List.length_append, List.length_append, length_sized] at hfuel
    -- the key is greater than those which were read before
    have hlt : ∀ k ∈ before.map Prod.fst, k < key := by
      intro k hk
      rw [List.map_append, List.pairwise_append] at hsorted
      exact hsorted.2.2 k hk key List.mem_cons_self
    have happend : before ++ (key, item) :: inmap = before ++ [(key, item)] ++ inmap := by simp
    rw [happend] at hsorted ⊢
    have hitem := parser_toAmf0 item (toAmf0Map inmap ++ (GenId.bytesOf 2 0 ++ ([0x09] ++ rest)))
      fuel hbuild.1 hshort.2.1 (by omega)
    have hopen : ¬ (key.length = 0
        ∧ (toAmf0 item ++ (toAmf0Map inmap ++ (GenId.bytesOf 2 0 ++ ([0x09] ++ rest)))).head?
          = some 0x09) := fun h => head_toAmf0 hbuild.1 _ h.2
    have hne : ¬ (sized key ++ (toAmf0 item ++ (toAmf0Map inmap
        ++ (GenId.bytesOf 2 0 ++ ([0x09] ++ rest))))).isEmpty = true := by
      simp [sized, GenId.bytesOf]
    rw [toAmf0Map, List.append_assoc, List.append_assoc, parseMap, if_neg hne,
      readUint16_sized hshort.1, Amf0Read.bind_ok, headConsume_append, Amf0Read.bind_ok]
    refine (if_neg hopen).trans ?_
    rw [hitem]
    have hnew : ¬ (dbg_assert && (Omap.find key before).isSome) = true := by
      simp [find_of_lt hlt]
    refine (if_neg hnew).trans ?_
    rw [mapInsert_of_lt hlt]
    exact parseMap_toAmf0Map inmap (before ++ [(key, item)]) rest fuel hsorted hbuild.2 hshort.2.2
      (by omega)

end

end Amf0

end Neoip
