/-
Neoip/Amf0Grammar.lean

What `amf0_parse_t` does with any bytes.

`Reads` is the grammar of the values which are read, with what is left behind
them; the entries of a map and the items of an array are forms of their own.
`Fails` says of some bytes that they begin, at some depth, with a string or a
key which is cut, or with a key which is in its map already.

Main results: `outcome`, every reading ends, with a value of the grammar, an
exception, or a failed assertion where the bytes are in `Fails`; and
`amf0_iff`, what is built is read back exactly when the keys are short, and
reading any bytes ends with a value or an error exactly when no assertion is
compiled in which fails.
-/
import Neoip.Amf0

namespace Neoip

namespace Amf0

/-! ### The grammar -/

/-- What is read: a value, the entries of a map under these keys, or so many items. -/
inductive Form
  | value
  | entries (keys : List Datum)
  | items (n : ℕ)

/-- The end of a map: the end of the bytes, or an empty key and the byte of `ENDOFOBJECT`. -/
inductive Ends : Datum → Datum → Prop
  | nothing : Ends [] []
  | closed {size rest} (hsize : size.length = 2) (hzero : GenId.ofBytes size = 0) :
      Ends (size ++ 0x09 :: rest) rest

/-- `Reads form b rest`: the bytes `b` begin with one, and `rest` is behind it. -/
inductive Reads : Form → Datum → Datum → Prop
  | number {bits rest} (hbits : bits.length = 8) : Reads .value (0x00 :: (bits ++ rest)) rest
  | boolean (value rest) : Reads .value (0x01 :: value :: rest) rest
  | string {size str rest} (hsize : size.length = 2) (hstr : str.length = GenId.ofBytes size) :
      Reads .value (0x02 :: (size ++ (str ++ rest))) rest
  | object {keys b c rest} (h : Reads (.entries keys) b c) (hend : Ends c rest) :
      Reads .value (0x03 :: b) rest
  | nil (rest) : Reads .value (0x05 :: rest) rest
  | undefined (rest) : Reads .value (0x06 :: rest) rest
  | mixedarray {highest keys b c rest} (hhighest : highest.length = 4)
      (h : Reads (.entries keys) b c) (hend : Ends c rest) :
      Reads .value (0x08 :: (highest ++ b)) rest
  | array {nb b rest} (hnb : nb.length = 4) (h : Reads (.items (GenId.ofBytes nb)) b rest) :
      Reads .value (0x0a :: (nb ++ b)) rest
  | date {bits offset rest} (hbits : bits.length = 8) (hoffset : offset.length = 2) :
      Reads .value (0x0b :: (bits ++ (offset ++ rest))) rest
  | noEntry (b) : Reads (.entries []) b b
  | entry {size key b c rest keys} (hsize : size.length = 2)
      (hkey : key.length = GenId.ofBytes size) (hopen : ¬ (key = [] ∧ b.head? = some 0x09))
      (hvalue : Reads .value b c) (h : Reads (.entries keys) c rest) :
      Reads (.entries (key :: keys)) (size ++ (key ++ b)) rest
  | noItem (b) : Reads (.items 0) b b
  | item {n b c rest} (hitem : Reads .value b c) (h : Reads (.items n) c rest) :
      Reads (.items (n + 1)) b rest

/-- An assertion fails on a value, or on the entries of a map which has the keys already. -/
inductive Fails : Form → Datum → Prop
  | string {size b} (hsize : size.length = 2) (hcut : b.length < GenId.ofBytes size) :
      Fails .value (0x02 :: (size ++ b))
  | object {keys b c} (h : Reads (.entries keys) b c) (hfails : Fails (.entries keys) c) :
      Fails .value (0x03 :: b)
  | mixedarray {highest keys b c} (hhighest : highest.length = 4) (h : Reads (.entries keys) b c)
      (hfails : Fails (.entries keys) c) : Fails .value (0x08 :: (highest ++ b))
  | array {nb k b c} (hnb : nb.length = 4) (hk : k < GenId.ofBytes nb) (h : Reads (.items k) b c)
      (hfails : Fails .value c) : Fails .value (0x0a :: (nb ++ b))
  | cutKey {keys size b} (hsize : size.length = 2) (hcut : b.length < GenId.ofBytes size) :
      Fails (.entries keys) (size ++ b)
  | inner {keys size key b} (hsize : size.length = 2) (hkey : key.length = GenId.ofBytes size)
      (hopen : ¬ (key = [] ∧ b.head? = some 0x09)) (hfails : Fails .value b) :
      Fails (.entries keys) (size ++ (key ++ b))
  | again {keys size key b c} (hsize : size.length = 2) (hkey : key.length = GenId.ofBytes size)
      (hopen : ¬ (key = [] ∧ b.head? = some 0x09)) (hvalue : Reads .value b c) (hmem : key ∈ keys) :
      Fails (.entries keys) (size ++ (key ++ b))

theorem Fails.mono {form : Form} {b : Datum} {keys keys' : List Datum} (h : Fails form b)
    (hform : form = .entries keys) (hsub : ∀ key ∈ keys, key ∈ keys') : Fails (.entries keys') b := by
  cases h with
  | string hsize hcut => cases hform
  | object h hfails => cases hform
  | mixedarray hhighest h hfails => cases hform
  | array hnb hk h hfails => cases hform
  | cutKey hsize hcut => exact .cutKey hsize hcut
  | inner hsize hkey hopen hfails => exact .inner hsize hkey hopen hfails
  | again hsize hkey hopen hvalue hmem =>
    cases hform
    exact .again hsize hkey hopen hvalue (hsub _ hmem)

/-! ### The cases of the parser -/

section Cases

variable (dbg_assert : Bool) {b c rest bytes size key : Datum} {fuel n : ℕ} {what : String}
  {inmap : List (Datum × Amf0Dvar)}

theorem readBytes_cases (n : ℕ) (what : String) (b : Datum) : readBytes n what b = .raised what
    ∨ ∃ bytes rest, b = bytes ++ rest ∧ bytes.length = n
        ∧ readBytes n what b = .ok bytes rest := by
  by_cases h : b.length < n
  · exact .inl (if_pos h)
  · exact .inr ⟨b.take n, b.drop n, (List.take_append_drop n b).symm,
      List.length_take_of_le (Nat.not_lt.1 h), if_neg h⟩

theorem readUint16_append (h : size.length = 2) :
    readUint16 (size ++ b) = .ok (GenId.ofBytes size) b := by
  rw [readUint16, readBytes_append h, Amf0Read.bind_ok]

theorem readUint32_append (h : size.length = 4) :
    readUint32 (size ++ b) = .ok (GenId.ofBytes size) b := by
  rw [readUint32, readBytes_append h, Amf0Read.bind_ok]

theorem readDouble_append (h : bytes.length = 8) : readDouble (bytes ++ b)
    = .ok (.double (UInt64.ofNat (GenId.ofBytes bytes))) b := by
  rw [readDouble, readBytes_append h, Amf0Read.bind_ok]

theorem readUint16_cases (b : Datum) : (∃ what, readUint16 b = .raised what)
    ∨ ∃ size rest, b = size ++ rest ∧ size.length = 2 := by
  rcases readBytes_cases 2 "uint16_t Payload Too Short" b with h | ⟨size, rest, hb, hsize, -⟩
  · exact .inl ⟨_, by rw [readUint16, h]; rfl⟩
  · exact .inr ⟨size, rest, hb, hsize⟩

theorem readUint32_cases (b : Datum) : (∃ what, readUint32 b = .raised what)
    ∨ ∃ size rest, b = size ++ rest ∧ size.length = 4 := by
  rcases readBytes_cases 4 "uint32_t Payload Too Short" b with h | ⟨size, rest, hb, hsize, -⟩
  · exact .inl ⟨_, by rw [readUint32, h]; rfl⟩
  · exact .inr ⟨size, rest, hb, hsize⟩

theorem readDouble_cases (b : Datum) : (∃ what, readDouble b = .raised what)
    ∨ ∃ bytes rest, b = bytes ++ rest ∧ bytes.length = 8 := by
  rcases readBytes_cases 8 "uint64_t Payload Too Short" b with h | ⟨bytes, rest, hb, hbytes, -⟩
  · exact .inl ⟨_, by rw [readDouble, h]; rfl⟩
  · exact .inr ⟨bytes, rest, hb, hbytes⟩

theorem headConsume_cut (h : b.length < n) :
    headConsume dbg_assert n b = if dbg_assert then .aborted else .raised "ByteArray too short." :=
  if_pos h

theorem headConsume_len (h : key.length = n) :
    headConsume dbg_assert n (key ++ b) = .ok key b := by
  rw [← h, headConsume_append]

theorem length_or_append (n : ℕ) (b : Datum) :
    b.length < n ∨ ∃ str rest, b = str ++ rest ∧ str.length = n := by
  by_cases h : b.length < n
  · exact .inl h
  · exact .inr ⟨b.take n, b.drop n, (List.take_append_drop n b).symm,
      List.length_take_of_le (Nat.not_lt.1 h)⟩

theorem parser_object (fuel : ℕ) (b : Datum) :
    parser dbg_assert (fuel + 1) (0x03 :: b) = parseMap dbg_assert fuel [] b := by
  rw [parser, readUint8_cons]
  rfl

theorem parser_mixedarray (fuel : ℕ) (h : size.length = 4) (b : Datum) :
    parser dbg_assert (fuel + 1) (0x08 :: (size ++ b)) = parseMap dbg_assert fuel [] b := by
  rw [parser, readUint8_cons]
  show (readUint32 (size ++ b)).bind _ = _
  rw [readUint32_append h, Amf0Read.bind_ok]

theorem parser_array (fuel : ℕ) (h : size.length = 4) (b : Datum) :
    parser dbg_assert (fuel + 1) (0x0a :: (size ++ b))
      = parseArr dbg_assert fuel (GenId.ofBytes size) [] b := by
  rw [parser, readUint8_cons]
  show (readUint32 (size ++ b)).bind _ = _
  rw [readUint32_append h, Amf0Read.bind_ok]

theorem parser_string (fuel : ℕ) (h : size.length = 2) (b : Datum) :
    parser dbg_assert (fuel + 1) (0x02 :: (size ++ b))
      = (headConsume dbg_assert (GenId.ofBytes size) b).bind fun str_data b =>
          .ok (.string str_data) b := by
  rw [parser, readUint8_cons]
  show (readUint16 (size ++ b)).bind _ = _
  rw [readUint16_append h, Amf0Read.bind_ok]

/-- A turn of the loop of a map at an entry. -/
theorem parseMap_entry (fuel : ℕ) (inmap : List (Datum × Amf0Dvar)) (hsize : size.length = 2)
    (hkey : key.length = GenId.ofBytes size) (hopen : ¬ (key = [] ∧ b.head? = some 0x09)) :
    parseMap dbg_assert (fuel + 1) inmap (size ++ (key ++ b))
      = (parser dbg_assert fuel b).bind fun value b =>
          if dbg_assert && (Omap.find key inmap).isSome then .aborted
          else parseMap dbg_assert fuel (mapInsert key value inmap) b := by
  have hne : ¬ (size ++ (key ++ b)).isEmpty = true := by
    rw [List.isEmpty_iff_length_eq_zero, List.length_append, hsize]
    omega
  have hnot : ¬ (GenId.ofBytes size = 0 ∧ b.head? = some 0x09) := by
    rw [← hkey, List.length_eq_zero_iff]
    exact hopen
  rw [parseMap, if_neg hne, readUint16_append hsize, Amf0Read.bind_ok, headConsume_len _ hkey,
    Amf0Read.bind_ok, if_neg hnot]

theorem parseMap_ends (fuel : ℕ) (inmap : List (Datum × Amf0Dvar)) (h : Ends c rest) :
    parseMap dbg_assert (fuel + 1) inmap c = .ok (.map inmap) rest := by
  cases h with
  | nothing =>
    rw [parseMap]
    rfl
  | @closed size _ hsize hzero =>
    have hne : ¬ (size ++ 0x09 :: rest).isEmpty = true := by
      rw [List.isEmpty_iff_length_eq_zero, List.length_append, hsize]
      omega
    have hkey : headConsume dbg_assert (GenId.ofBytes size) ([] ++ 0x09 :: rest)
        = .ok [] (0x09 :: rest) := headConsume_len dbg_assert hzero.symm
    rw [List.nil_append] at hkey
    rw [parseMap, if_neg hne, readUint16_append hsize, Amf0Read.bind_ok, hkey, Amf0Read.bind_ok]
    exact if_pos ⟨hzero, rfl⟩

theorem parseMap_cut (fuel : ℕ) (inmap : List (Datum × Amf0Dvar)) (hsize : size.length = 2)
    (hcut : b.length < GenId.ofBytes size) : parseMap dbg_assert (fuel + 1) inmap (size ++ b)
      = if dbg_assert then .aborted else .raised "ByteArray too short." := by
  have hne : ¬ (size ++ b).isEmpty = true := by
    rw [List.isEmpty_iff_length_eq_zero, List.length_append, hsize]
    omega
  rw [parseMap, if_neg hne, readUint16_append hsize, Amf0Read.bind_ok, headConsume_cut _ hcut]
  cases dbg_assert
  · rfl
  · rfl

/-- Where the loop of a map can be: at its end, at a length which is cut, at a key which is, or
at an entry. -/
theorem map_cases (b : Datum) : (∃ rest, Ends b rest)
    ∨ (∃ what, readUint16 b = .raised what ∧ b ≠ [])
    ∨ (∃ size c, b = size ++ c ∧ size.length = 2 ∧ c.length < GenId.ofBytes size)
    ∨ ∃ size key c, b = size ++ (key ++ c) ∧ size.length = 2 ∧ key.length = GenId.ofBytes size
      ∧ ¬ (key = [] ∧ c.head? = some 0x09) := by
  by_cases hnil : b = []
  · subst hnil
    exact .inl ⟨[], .nothing⟩
  rcases readUint16_cases b with ⟨what, hraised⟩ | ⟨size, c, rfl, hsize⟩
  · exact .inr (.inl ⟨what, hraised, hnil⟩)
  rcases length_or_append (GenId.ofBytes size) c with hcut | ⟨key, d, rfl, hkey⟩
  · exact .inr (.inr (.inl ⟨size, c, rfl, hsize, hcut⟩))
  by_cases hend : key = [] ∧ d.head? = some 0x09
  · obtain ⟨rfl, hhead⟩ := hend
    obtain ⟨tail, rfl⟩ := List.head?_eq_some_iff.1 hhead
    exact .inl ⟨tail, .closed hsize hkey.symm⟩
  · exact .inr (.inr (.inr ⟨size, key, d, rfl, hsize, hkey, hend⟩))

end Cases

/-! ### Lengths and keys -/

section Lengths

variable {b c rest key : Datum} {form : Form} {value : Amf0Dvar} {inmap : List (Datum × Amf0Dvar)}

/-- What is left is shorter after a value, and no longer after the other forms. -/
def Shorter : Form → Datum → Datum → Prop
  | .value, b, rest => rest.length < b.length
  | _, b, rest => rest.length ≤ b.length

theorem Ends.length_le (h : Ends c rest) : rest.length ≤ c.length := by
  cases h with
  | nothing => exact Nat.le_refl _
  | closed hsize hzero =>
    rw [List.length_append, List.length_cons]
    omega

theorem Reads.shorter (h : Reads form b rest) : Shorter form b rest := by
  induction h with
  | number hbits =>
    simp only [Shorter, List.length_cons, List.length_append]
    omega
  | boolean value rest =>
    simp only [Shorter, List.length_cons]
    omega
  | string hsize hstr =>
    simp only [Shorter, List.length_cons, List.length_append]
    omega
  | object h hend ih => exact Nat.lt_succ_of_le (hend.length_le.trans ih)
  | nil rest => exact Nat.lt_succ_self _
  | undefined rest => exact Nat.lt_succ_self _
  | mixedarray hhighest h hend ih =>
    have hle := hend.length_le.trans ih
    simp only [Shorter, List.length_cons, List.length_append]
    omega
  | array hnb h ih =>
    simp only [Shorter] at ih
    simp only [Shorter, List.length_cons, List.length_append]
    omega
  | date hbits hoffset =>
    simp only [Shorter, List.length_cons, List.length_append]
    omega
  | noEntry b => exact Nat.le_refl _
  | entry hsize hkey hopen hvalue h ihvalue ih =>
    simp only [Shorter] at ihvalue ih
    simp only [Shorter, List.length_append]
    omega
  | noItem b => exact Nat.le_refl _
  | item hitem h ihitem ih => exact Nat.le_of_lt (Nat.lt_of_le_of_lt ih ihitem)

theorem ofBytes_lt (b : Datum) : GenId.ofBytes b < 256 ^ b.length := by
  suffices h : ∀ (b : Datum) (n : ℕ), b.foldl (fun n c => n * 256 + c.toNat) n
      < (n + 1) * 256 ^ b.length by
    have := h b 0
    rwa [Nat.zero_add, Nat.one_mul] at this
  intro b
  induction b with
  | nil => intro n; simp
  | cons c b ih =>
    intro n
    have hc := c.toNat_lt
    have hle : n * 256 + c.toNat + 1 ≤ (n + 1) * 256 := by omega
    rw [List.foldl_cons, List.length_cons, Nat.pow_succ']
    calc b.foldl (fun n c => n * 256 + c.toNat) (n * 256 + c.toNat)
        < (n * 256 + c.toNat + 1) * 256 ^ b.length := ih _
      _ ≤ (n + 1) * 256 * 256 ^ b.length := Nat.mul_le_mul_right _ hle
      _ = (n + 1) * (256 * 256 ^ b.length) := Nat.mul_assoc _ _ _

/-- A key which was read is short. -/
theorem length_lt_of_ofBytes {size : Datum} (hsize : size.length = 2)
    (hkey : key.length = GenId.ofBytes size) : key.length < 2 ^ 16 := by
  have hlt := ofBytes_lt size
  rw [hsize, ← hkey] at hlt
  exact hlt

theorem mem_mapInsert {e : Datum × Amf0Dvar} (h : e ∈ mapInsert key value inmap) :
    e = (key, value) ∨ e ∈ inmap := by
  rw [mapInsert, Omap.insert] at h
  cases hfind : Omap.find key inmap with
  | none =>
    rw [hfind] at h
    exact Omap.mem_place.1 h
  | some old =>
    rw [hfind] at h
    exact .inr h

theorem key_mapInsert {k : Datum} :
    k ∈ (mapInsert key value inmap).map Prod.fst ↔ k = key ∨ k ∈ inmap.map Prod.fst := by
  constructor
  · intro h
    obtain ⟨e, he, rfl⟩ := List.mem_map.1 h
    rcases mem_mapInsert he with rfl | hmem
    · exact .inl rfl
    · exact .inr (List.mem_map_of_mem hmem)
  · intro h
    rw [mapInsert, Omap.insert]
    cases hfind : Omap.find key inmap with
    | none =>
      rcases h with rfl | hmem
      · exact List.mem_map.2 ⟨(k, value), Omap.mem_place.2 (.inl rfl), rfl⟩
      · obtain ⟨e, he, rfl⟩ := List.mem_map.1 hmem
        exact List.mem_map.2 ⟨e, Omap.mem_place.2 (.inr he), rfl⟩
    | some old =>
      rcases h with rfl | hmem
      · exact List.mem_map.2 ⟨(k, old), Omap.mem_of_find hfind, rfl⟩
      · exact hmem

theorem isSome_find : (Omap.find key inmap).isSome = true ↔ key ∈ inmap.map Prod.fst := by
  cases hfind : Omap.find key inmap with
  | none =>
    refine iff_of_false (by simp) fun hmem => ?_
    obtain ⟨⟨k, value⟩, he, rfl⟩ := List.mem_map.1 hmem
    exact Omap.find_eq_none.1 hfind value he
  | some value =>
    exact iff_of_true rfl (List.mem_map.2 ⟨(key, value), Omap.mem_of_find hfind, rfl⟩)

theorem shortKeysMap_iff : Amf0Dvar.ShortKeysMap inmap
    ↔ ∀ e ∈ inmap, e.1.length < 2 ^ 16 ∧ e.2.ShortKeys := by
  induction inmap with
  | nil => simp [Amf0Dvar.ShortKeysMap]
  | cons e inmap ih =>
    obtain ⟨key, value⟩ := e
    rw [Amf0Dvar.ShortKeysMap, ih, List.forall_mem_cons, and_assoc]

theorem shortKeysArr_append {arr : List Amf0Dvar} (h : Amf0Dvar.ShortKeysArr arr)
    (hvalue : value.ShortKeys) : Amf0Dvar.ShortKeysArr (arr ++ [value]) := by
  induction arr with
  | nil => exact ⟨hvalue, trivial⟩
  | cons item arr ih =>
    rw [Amf0Dvar.ShortKeysArr] at h
    exact ⟨h.1, ih h.2⟩

theorem shortKeysMap_mapInsert (h : Amf0Dvar.ShortKeysMap inmap) (hkey : key.length < 2 ^ 16)
    (hvalue : value.ShortKeys) : Amf0Dvar.ShortKeysMap (mapInsert key value inmap) := by
  refine shortKeysMap_iff.2 fun e he => ?_
  rcases mem_mapInsert he with rfl | hmem
  · exact ⟨hkey, hvalue⟩
  · exact shortKeysMap_iff.1 h e hmem

end Lengths

/-! ### Every reading ends -/

section Outcome

variable {dbg_assert : Bool}

/-- A reading has an outcome: `good` of the value and what is left, an exception, an assertion
which failed because of `fails`, or too little fuel. -/
def Outcome (dbg_assert : Bool) (good : Amf0Dvar → Datum → Prop) (fails short : Prop) :
    Amf0Read Amf0Dvar → Prop
  | .ok value rest => good value rest
  | .raised _ => True
  | .aborted => dbg_assert = true ∧ fails
  | .unended => short

theorem outcome_cut {good : Amf0Dvar → Datum → Prop} {fails short : Prop} (hfails : fails) :
    Outcome dbg_assert good fails short
      (if dbg_assert then .aborted else .raised "ByteArray too short.") := by
  cases dbg_assert with
  | true => exact ⟨rfl, hfails⟩
  | false => exact trivial

/-- The three parts of the parser, with the same fuel. -/
structure Outcomes (dbg_assert : Bool) (fuel : ℕ) : Prop where
  value : ∀ b, Outcome dbg_assert (fun value rest => Reads .value b rest ∧ value.ShortKeys)
    (Fails .value b) (fuel ≤ b.length) (parser dbg_assert fuel b)
  map : ∀ inmap b, Amf0Dvar.ShortKeysMap inmap →
    Outcome dbg_assert
      (fun value rest => (∃ keys c, Reads (.entries keys) b c ∧ Ends c rest) ∧ value.ShortKeys)
      (∃ keys c, Reads (.entries keys) b c ∧ Fails (.entries (inmap.map Prod.fst ++ keys)) c)
      (fuel ≤ b.length) (parseMap dbg_assert fuel inmap b)
  arr : ∀ n arr b, Amf0Dvar.ShortKeysArr arr →
    Outcome dbg_assert (fun value rest => Reads (.items n) b rest ∧ value.ShortKeys)
      (∃ k c, k < n ∧ Reads (.items k) b c ∧ Fails .value c) (fuel ≤ b.length + 1)
      (parseArr dbg_assert fuel n arr b)

theorem Outcome.mono {good good' : Amf0Dvar → Datum → Prop} {fails fails' short short' : Prop}
    {r : Amf0Read Amf0Dvar} (h : Outcome dbg_assert good fails short r)
    (hgood : ∀ value rest, good value rest → good' value rest) (hfails : fails → fails')
    (hshort : short → short') : Outcome dbg_assert good' fails' short' r := by
  cases r with
  | ok value rest => exact hgood value rest h
  | raised what => exact trivial
  | aborted => exact ⟨h.1, hfails h.2⟩
  | unended => exact hshort h

variable {fuel : ℕ}

/-- A value, from its entries or items with less fuel. -/
theorem Outcomes.value_succ (h : Outcomes dbg_assert fuel) (b : Datum) :
    Outcome dbg_assert (fun value rest => Reads .value b rest ∧ value.ShortKeys)
      (Fails .value b) (fuel + 1 ≤ b.length) (parser dbg_assert (fuel + 1) b) := by
  cases b with
  | nil =>
    rw [parser]
    exact trivial
  | cons c b =>
    rw [parser, readUint8_cons, Amf0Read.bind_ok]
    -- one case for each marker which the parser knows, in its order
    split_ifs with h0 h1 h2 h3 h5 h6 h8 ha hb
    · obtain rfl : c = 0x00 := UInt8.toNat_inj.1 h0
      rcases readDouble_cases b with ⟨what, hraised⟩ | ⟨bits, rest, rfl, hbits⟩
      · rw [hraised]
        exact trivial
      · rw [readDouble_append hbits]
        exact ⟨.number hbits, trivial⟩
    · obtain rfl : c = 0x01 := UInt8.toNat_inj.1 h1
      cases b with
      | nil => exact trivial
      | cons value b =>
        rw [readUint8_cons]
        exact ⟨.boolean value b, trivial⟩
    · obtain rfl : c = 0x02 := UInt8.toNat_inj.1 h2
      rcases readUint16_cases b with ⟨what, hraised⟩ | ⟨size, b, rfl, hsize⟩
      · rw [hraised]
        exact trivial
      · rw [readUint16_append hsize, Amf0Read.bind_ok]
        rcases length_or_append (GenId.ofBytes size) b with hcut | ⟨str, rest, rfl, hstr⟩
        · rw [headConsume_cut _ hcut]
          -- the string is cut: headConsume asserts, or raises in the release build
          have hfails : Fails .value (0x02 :: (size ++ b)) := .string hsize hcut
          cases dbg_assert with
          | true => exact ⟨rfl, hfails⟩
          | false => exact trivial
        · rw [headConsume_len _ hstr]
          exact ⟨.string hsize hstr, trivial⟩
    · obtain rfl : c = 0x03 := UInt8.toNat_inj.1 h3
      refine (h.map [] b trivial).mono ?_ ?_ Nat.succ_le_succ
      · rintro value rest ⟨⟨keys, c, hreads, hend⟩, hshort⟩
        exact ⟨.object hreads hend, hshort⟩
      · rintro ⟨keys, c, hreads, hfails⟩
        exact .object hreads hfails
    · obtain rfl : c = 0x05 := UInt8.toNat_inj.1 h5
      exact ⟨.nil b, trivial⟩
    · obtain rfl : c = 0x06 := UInt8.toNat_inj.1 h6
      exact ⟨.undefined b, trivial⟩
    · obtain rfl : c = 0x08 := UInt8.toNat_inj.1 h8
      rcases readUint32_cases b with ⟨what, hraised⟩ | ⟨highest, b, rfl, hhighest⟩
      · rw [hraised]
        exact trivial
      · rw [readUint32_append hhighest, Amf0Read.bind_ok]
        refine (h.map [] b trivial).mono ?_ ?_ fun hle => ?_
        · rintro value rest ⟨⟨keys, c, hreads, hend⟩, hshort⟩
          exact ⟨.mixedarray hhighest hreads hend, hshort⟩
        · rintro ⟨keys, c, hreads, hfails⟩
          exact .mixedarray hhighest hreads hfails
        · simp only [List.length_cons, List.length_append]
          omega
    · obtain rfl : c = 0x0a := UInt8.toNat_inj.1 ha
      rcases readUint32_cases b with ⟨what, hraised⟩ | ⟨nb, b, rfl, hnb⟩
      · rw [hraised]
        exact trivial
      · rw [readUint32_append hnb, Amf0Read.bind_ok]
        refine (h.arr (GenId.ofBytes nb) [] b trivial).mono ?_ ?_ fun hle => ?_
        · rintro value rest ⟨hreads, hshort⟩
          exact ⟨.array hnb hreads, hshort⟩
        · rintro ⟨k, c, hk, hreads, hfails⟩
          exact .array hnb hk hreads hfails
        · simp only [List.length_cons, List.length_append]
          omega
    · obtain rfl : c = 0x0b := UInt8.toNat_inj.1 hb
      rcases readDouble_cases b with ⟨what, hraised⟩ | ⟨bits, b, rfl, hbits⟩
      · rw [hraised]
        exact trivial
      · rw [readDouble_append hbits, Amf0Read.bind_ok]
        rcases readUint16_cases b with ⟨what, hraised⟩ | ⟨offset, rest, rfl, hoffset⟩
        · rw [hraised]
          exact trivial
        · rw [readUint16_append hoffset]
          exact ⟨.date hbits hoffset, trivial⟩
    · exact trivial

/-- The entries of a map, from the value of the first one and from the others. -/
theorem Outcomes.map_succ (h : Outcomes dbg_assert fuel) (inmap : List (Datum × Amf0Dvar))
    (b : Datum) (hshort : Amf0Dvar.ShortKeysMap inmap) :
    Outcome dbg_assert
      (fun value rest => (∃ keys c, Reads (.entries keys) b c ∧ Ends c rest) ∧ value.ShortKeys)
      (∃ keys c, Reads (.entries keys) b c ∧ Fails (.entries (inmap.map Prod.fst ++ keys)) c)
      (fuel + 1 ≤ b.length) (parseMap dbg_assert (fuel + 1) inmap b) := by
  rcases map_cases b with ⟨rest, hend⟩ | ⟨what, hraised, hne⟩ | ⟨size, c, rfl, hsize, hcut⟩
    | ⟨size, key, c, rfl, hsize, hkey, hopen⟩
  · rw [parseMap_ends _ _ _ hend]
    exact ⟨⟨[], b, .noEntry b, hend⟩, hshort⟩
  · rw [parseMap, if_neg (by rwa [List.isEmpty_iff]), hraised]
    exact trivial
  · rw [parseMap_cut _ _ _ hsize hcut]
    exact outcome_cut ⟨[], size ++ c, .noEntry _, .cutKey hsize hcut⟩
  · rw [parseMap_entry _ _ _ hsize hkey hopen]
    have hvalue := h.value c
    cases hread : parser dbg_assert fuel c with
    | raised what => exact trivial
    | aborted =>
      rw [hread] at hvalue
      exact ⟨hvalue.1, [], _, .noEntry _, .inner hsize hkey hopen hvalue.2⟩
    | unended =>
      rw [hread] at hvalue
      have hle : fuel ≤ c.length := hvalue
      show fuel + 1 ≤ (size ++ (key ++ c)).length
      rw [List.length_append, List.length_append]
      omega
    | ok value d =>
      rw [hread] at hvalue
      have hlt : d.length < c.length := hvalue.1.shorter
      rw [Amf0Read.bind_ok]
      split_ifs with hagain
      -- the key was read before, which the debug build asserts against
      · obtain ⟨hdbg, hfind⟩ := Bool.and_eq_true_iff.1 hagain
        refine ⟨hdbg, [], _, .noEntry _, .again hsize hkey hopen hvalue.1 ?_⟩
        rw [List.append_nil]
        exact isSome_find.1 hfind
      · have hinsert := shortKeysMap_mapInsert hshort (length_lt_of_ofBytes hsize hkey) hvalue.2
        refine (h.map (mapInsert key value inmap) d hinsert).mono ?_ ?_ fun hle => ?_
        · rintro map rest ⟨⟨keys, e, hreads, hend⟩, hmap⟩
          exact ⟨⟨key :: keys, e, .entry hsize hkey hopen hvalue.1 hreads, hend⟩, hmap⟩
        · rintro ⟨keys, e, hreads, hfails⟩
          refine ⟨key :: keys, e, .entry hsize hkey hopen hvalue.1 hreads, hfails.mono rfl ?_⟩
          intro k hk
          rcases List.mem_append.1 hk with hold | hnew
          · rcases key_mapInsert.1 hold with rfl | hmem
            · exact List.mem_append_right _ List.mem_cons_self
            · exact List.mem_append_left _ hmem
          · exact List.mem_append_right _ (List.mem_cons_of_mem _ hnew)
        · rw [List.length_append, List.length_append]
          omega

/-- The items of an array, in the same way. -/
theorem Outcomes.arr_succ (h : Outcomes dbg_assert fuel) (n : ℕ) (arr : List Amf0Dvar) (b : Datum)
    (hshort : Amf0Dvar.ShortKeysArr arr) :
    Outcome dbg_assert (fun value rest => Reads (.items n) b rest ∧ value.ShortKeys)
      (∃ k c, k < n ∧ Reads (.items k) b c ∧ Fails .value c) (fuel + 1 ≤ b.length + 1)
      (parseArr dbg_assert (fuel + 1) n arr b) := by
  cases n with
  | zero =>
    rw [parseArr]
    exact ⟨.noItem b, hshort⟩
  | succ n =>
    rw [parseArr]
    have hvalue := h.value b
    cases hread : parser dbg_assert fuel b with
    | raised what => exact trivial
    | aborted =>
      rw [hread] at hvalue
      exact ⟨hvalue.1, 0, b, Nat.succ_pos n, .noItem b, hvalue.2⟩
    | unended =>
      rw [hread] at hvalue
      exact Nat.succ_le_succ hvalue
    | ok item c =>
      rw [hread] at hvalue
      have hlt : c.length < b.length := hvalue.1.shorter
      rw [Amf0Read.bind_ok]
      refine (h.arr n (arr ++ [item]) c (shortKeysArr_append hshort hvalue.2)).mono ?_ ?_
        fun hle => ?_
      · rintro value rest ⟨hreads, hvalue'⟩
        exact ⟨.item hvalue.1 hreads, hvalue'⟩
      · rintro ⟨k, d, hk, hreads, hfails⟩
        exact ⟨k + 1, d, Nat.succ_lt_succ hk, .item hvalue.1 hreads, hfails⟩
      · omega

/-- **Every reading has its outcome**, by induction on the fuel. -/
theorem outcomes (dbg_assert : Bool) (fuel : ℕ) : Outcomes dbg_assert fuel := by
  induction fuel with
  | zero =>
    refine ⟨fun b => ?_, fun inmap b _ => ?_, fun n arr b _ => ?_⟩
    · rw [parser]
      exact Nat.zero_le _
    · rw [parseMap]
      exact Nat.zero_le _
    · rw [parseArr]
      exact Nat.zero_le _
  | succ fuel ih => exact ⟨ih.value_succ, ih.map_succ, ih.arr_succ⟩

end Outcome

/-! ### The grammar is read -/

section Accepts

/-- With enough fuel the parser reads the value, or meets an assertion which fails before; and
its loops come to what is behind the entries, with their keys in the map, and the items. -/
def Accepts (dbg_assert : Bool) : Form → Datum → Datum → Prop
  | .value, b, rest => ∀ fuel, b.length < fuel →
      parser dbg_assert fuel b = .aborted ∨ ∃ value, parser dbg_assert fuel b = .ok value rest
  | .entries keys, b, c => ∀ fuel inmap, b.length < fuel →
      parseMap dbg_assert fuel inmap b = .aborted ∨ ∃ fuel' inmap', c.length < fuel'
        ∧ parseMap dbg_assert fuel inmap b = parseMap dbg_assert fuel' inmap' c
        ∧ ∀ key, key ∈ keys ∨ key ∈ inmap.map Prod.fst → key ∈ inmap'.map Prod.fst
  | .items n, b, c => ∀ fuel m arr, b.length + 1 < fuel →
      parseArr dbg_assert fuel (n + m) arr b = .aborted ∨ ∃ fuel' arr', c.length + 1 < fuel'
        ∧ parseArr dbg_assert fuel (n + m) arr b = parseArr dbg_assert fuel' m arr' c

variable {dbg_assert : Bool} {form : Form} {b c rest : Datum} {keys : List Datum} {fuel n m : ℕ}

theorem exists_succ_of_lt (h : m < n) : ∃ k, n = k + 1 ∧ m ≤ k :=
  ⟨n - 1, by omega, by omega⟩

/-- The entries of a map, and then its end. -/
theorem parseMap_of_accepts (h : Accepts dbg_assert (.entries keys) b c) (hend : Ends c rest)
    (hfuel : b.length < fuel) : parseMap dbg_assert fuel [] b = .aborted
      ∨ ∃ value, parseMap dbg_assert fuel [] b = .ok value rest := by
  rcases h fuel [] hfuel with habort | ⟨fuel', inmap', hlt, heq, -⟩
  · exact .inl habort
  · obtain ⟨k, rfl, -⟩ := exists_succ_of_lt hlt
    exact .inr ⟨.map inmap', by rw [heq, parseMap_ends _ _ _ hend]⟩

/-- **What the grammar has is read**, if no assertion fails before. -/
theorem Reads.accepts (h : Reads form b rest) : Accepts dbg_assert form b rest := by
  -- each fuel above the length, on the derivation
  induction h with
  | @number bits rest hbits =>
    intro fuel hfuel
    obtain ⟨k, rfl, -⟩ := exists_succ_of_lt hfuel
    refine .inr ⟨.double (UInt64.ofNat (GenId.ofBytes bits)), ?_⟩
    rw [parser, readUint8_cons]
    exact readDouble_append hbits
  | boolean value rest =>
    intro fuel hfuel
    obtain ⟨k, rfl, -⟩ := exists_succ_of_lt hfuel
    refine .inr ⟨.boolean (value.toNat ≠ 0), ?_⟩
    rw [parser, readUint8_cons]
    show ((readUint8 (value :: rest)).bind fun value b =>
      Amf0Read.ok (Amf0Dvar.boolean (value ≠ 0)) b) = _
    rw [readUint8_cons, Amf0Read.bind_ok]
  | string hsize hstr =>
    intro fuel hfuel
    obtain ⟨k, rfl, -⟩ := exists_succ_of_lt hfuel
    exact .inr ⟨_, by rw [parser_string _ _ hsize, headConsume_len _ hstr, Amf0Read.bind_ok]⟩
  | object h hend ih =>
    intro fuel hfuel
    rw [List.length_cons] at hfuel
    obtain ⟨k, rfl, hk⟩ := exists_succ_of_lt hfuel
    rw [parser_object]
    exact parseMap_of_accepts ih hend hk
  | nil rest =>
    intro fuel hfuel
    obtain ⟨k, rfl, -⟩ := exists_succ_of_lt hfuel
    refine .inr ⟨.nil, ?_⟩
    rw [parser, readUint8_cons]
    rfl
  | undefined rest =>
    intro fuel hfuel
    obtain ⟨k, rfl, -⟩ := exists_succ_of_lt hfuel
    refine .inr ⟨.null, ?_⟩
    rw [parser, readUint8_cons]
    rfl
  | mixedarray hhighest h hend ih =>
    intro fuel hfuel
    rw [List.length_cons, List.length_append] at hfuel
    obtain ⟨k, rfl, hk⟩ := exists_succ_of_lt hfuel
    rw [parser_mixedarray _ _ hhighest]
    exact parseMap_of_accepts ih hend (by omega)
  | @array nb b rest hnb h ih =>
    intro fuel hfuel
    rw [List.length_cons, List.length_append] at hfuel
    obtain ⟨k, rfl, hk⟩ := exists_succ_of_lt hfuel
    rw [parser_array _ _ hnb]
    -- the items before may have failed an assertion
    rcases ih k 0 [] (by omega) with habort | ⟨fuel', arr', hlt, heq⟩
    · exact .inl habort
    · obtain ⟨j, rfl, -⟩ := exists_succ_of_lt hlt
      refine .inr ⟨.array arr', ?_⟩
      rw [Nat.add_zero] at heq
      rw [heq, parseArr]
  | @date bits offset rest hbits hoffset =>
    intro fuel hfuel
    obtain ⟨k, rfl, -⟩ := exists_succ_of_lt hfuel
    refine .inr ⟨.double (UInt64.ofNat (GenId.ofBytes bits)), ?_⟩
    rw [parser, readUint8_cons]
    show (readDouble _).bind _ = _
    rw [readDouble_append hbits, Amf0Read.bind_ok, readUint16_append hoffset, Amf0Read.bind_ok]
  | noEntry b =>
    intro fuel inmap hfuel
    refine .inr ⟨fuel, inmap, hfuel, rfl, fun key hkey => ?_⟩
    rcases hkey with hmem | hmem
    · exact absurd hmem List.not_mem_nil
    · exact hmem
  | @entry size key b c rest keys hsize hkey hopen hvalue h ihvalue ih =>
    intro fuel inmap hfuel
    obtain ⟨k, rfl, hk⟩ := exists_succ_of_lt hfuel
    rw [List.length_append, List.length_append, hsize] at hk
    have hlt : c.length < b.length := hvalue.shorter
    rw [parseMap_entry _ _ _ hsize hkey hopen]
    rcases ihvalue k (by omega) with habort | ⟨value, hread⟩
    · rw [habort]
      exact .inl rfl
    · rw [hread, Amf0Read.bind_ok]
      -- the debug build asserts that the key is new
      split_ifs with hagain
      · exact .inl rfl
      · rcases ih k (mapInsert key value inmap) (by omega)
          with habort | ⟨fuel', inmap', hlt', heq, hkeys⟩
        · exact .inl habort
        -- the keys read so far are those of the grammar or were there
        · refine .inr ⟨fuel', inmap', hlt', heq, fun k hk => hkeys k ?_⟩
          rcases hk with hmem | hmem
          · rcases List.mem_cons.1 hmem with rfl | hmem
            · exact .inr (key_mapInsert.2 (.inl rfl))
            · exact .inl hmem
          · exact .inr (key_mapInsert.2 (.inr hmem))
  | noItem b =>
    intro fuel m arr hfuel
    exact .inr ⟨fuel, arr, hfuel, by rw [Nat.zero_add]⟩
  | @item n b c rest hitem h ihitem ih =>
    intro fuel m arr hfuel
    obtain ⟨k, rfl, hk⟩ := exists_succ_of_lt hfuel
    have hlt : c.length < b.length := hitem.shorter
    rw [Nat.succ_add, parseArr]
    rcases ihitem k (by omega) with habort | ⟨value, hread⟩
    · rw [habort]
      exact .inl rfl
    · rw [hread, Amf0Read.bind_ok]
      exact ih k m _ (by omega)

end Accepts

/-! ### The assertions -/

section Aborts

/-- With the assertions compiled in, one of them fails. -/
def Aborts : Form → Datum → Prop
  | .value, b => ∀ fuel, b.length < fuel → parser true fuel b = .aborted
  | .entries keys, b => ∀ fuel inmap, b.length < fuel →
      (∀ key ∈ keys, key ∈ inmap.map Prod.fst) → parseMap true fuel inmap b = .aborted
  | .items _, _ => True

variable {form : Form} {b c : Datum} {keys : List Datum} {fuel : ℕ}

theorem parseMap_of_aborts (h : Reads (.entries keys) b c) (habort : Aborts (.entries keys) c)
    (hfuel : b.length < fuel) : parseMap true fuel [] b = .aborted := by
  rcases h.accepts fuel [] hfuel with hbefore | ⟨fuel', inmap', hlt, heq, hkeys⟩
  · exact hbefore
  · rw [heq]
    exact habort fuel' inmap' hlt fun key hkey => hkeys key (.inl hkey)

/-- **What is in `Fails` fails.** -/
theorem Fails.aborts (h : Fails form b) : Aborts form b := by
  induction h with
  | string hsize hcut =>
    intro fuel hfuel
    obtain ⟨k, rfl, -⟩ := exists_succ_of_lt hfuel
    rw [parser_string _ _ hsize, headConsume_cut _ hcut]
    rfl
  | object h hfails ih =>
    intro fuel hfuel
    rw [List.length_cons] at hfuel
    obtain ⟨k, rfl, hk⟩ := exists_succ_of_lt hfuel
    rw [parser_object]
    exact parseMap_of_aborts h ih hk
  | mixedarray hhighest h hfails ih =>
    intro fuel hfuel
    rw [List.length_cons, List.length_append] at hfuel
    obtain ⟨k, rfl, hk⟩ := exists_succ_of_lt hfuel
    rw [parser_mixedarray _ _ hhighest]
    exact parseMap_of_aborts h ih (by omega)
  | @array nb k b c hnb hk h hfails ih =>
    intro fuel hfuel
    rw [List.length_cons, List.length_append] at hfuel
    obtain ⟨j, rfl, hj⟩ := exists_succ_of_lt hfuel
    obtain ⟨m, hm⟩ : ∃ m, GenId.ofBytes nb = k + (m + 1) := ⟨GenId.ofBytes nb - k - 1, by omega⟩
    rw [parser_array _ _ hnb, hm]
    -- the items before the failing one are read, or fail first
    rcases h.accepts j (m + 1) [] (by omega) with hbefore | ⟨fuel', arr', hlt, heq⟩
    · exact hbefore
    · obtain ⟨i, rfl, hi⟩ := exists_succ_of_lt hlt
      rw [heq, parseArr, ih i (by omega)]
      rfl
  | cutKey hsize hcut =>
    intro fuel inmap hfuel _
    obtain ⟨k, rfl, -⟩ := exists_succ_of_lt hfuel
    rw [parseMap_cut _ _ _ hsize hcut]
    rfl
  | inner hsize hkey hopen hfails ih =>
    intro fuel inmap hfuel _
    obtain ⟨k, rfl, hk⟩ := exists_succ_of_lt hfuel
    rw [List.length_append, List.length_append, hsize] at hk
    rw [parseMap_entry _ _ _ hsize hkey hopen, ih k (by omega)]
    rfl
  | again hsize hkey hopen hvalue hmem =>
    intro fuel inmap hfuel hkeys
    obtain ⟨k, rfl, hk⟩ := exists_succ_of_lt hfuel
    rw [List.length_append, List.length_append, hsize] at hk
    rw [parseMap_entry _ _ _ hsize hkey hopen]
    have haccepts : Accepts true .value _ _ := hvalue.accepts
    rcases haccepts k (by omega) with hbefore | ⟨value, hread⟩
    · rw [hbefore]
      rfl
    · rw [hread, Amf0Read.bind_ok]
      exact if_pos (isSome_find.2 (hkeys _ hmem))

end Aborts

/-! ### The codec -/

/-- What is built of the variable is read back, whatever follows it, which is left. -/
def RoundTrips (dbg_assert : Bool) (dvar : Amf0Dvar) : Prop :=
  ∀ rest, parse dbg_assert (toAmf0 dvar ++ rest) = .ok dvar rest

/-- Reading ends, with a value or with an error which is reported. -/
def Ended (dbg_assert : Bool) (b : Datum) : Prop :=
  (∃ value rest, amfToDvar dbg_assert b = .ok value rest)
    ∨ ∃ reason, amfToDvar dbg_assert b = .raised reason

section Codec

variable {dbg_assert : Bool} {dvar : Amf0Dvar} {b : Datum}

theorem roundTrips_of_shortKeys (h : dvar.Buildable) (hshort : dvar.ShortKeys) :
    RoundTrips dbg_assert dvar := by
  intro rest
  refine parser_toAmf0 dbg_assert dvar rest _ h hshort ?_
  rw [List.length_append]
  omega

/-- Whatever is read has short keys. -/
theorem shortKeys_of_roundTrips (h : RoundTrips dbg_assert dvar) : dvar.ShortKeys := by
  have hread := h []
  have hout := (outcomes dbg_assert ((toAmf0 dvar ++ []).length + 1)).value (toAmf0 dvar ++ [])
  rw [parse] at hread
  rw [hread] at hout
  exact hout.2

theorem ended_iff : Ended dbg_assert b ↔ ¬ (dbg_assert = true ∧ Fails .value b) := by
  have hout := (outcomes dbg_assert (b.length + 1)).value b
  rw [Ended, amfToDvar, parse]
  cases hread : parser dbg_assert (b.length + 1) b with
  | ok value rest =>
    refine iff_of_true (.inl ⟨value, rest, rfl⟩) ?_
    rintro ⟨rfl, hfails⟩
    rw [hfails.aborts _ (Nat.lt_succ_self _)] at hread
    cases hread
  | raised what =>
    refine iff_of_true (.inr ⟨_, rfl⟩) ?_
    rintro ⟨rfl, hfails⟩
    rw [hfails.aborts _ (Nat.lt_succ_self _)] at hread
    cases hread
  | aborted =>
    rw [hread] at hout
    refine iff_of_false ?_ (not_not.2 hout)
    rintro (⟨value, rest, heq⟩ | ⟨reason, heq⟩)
    · cases heq
    · cases heq
  | unended =>
    rw [hread] at hout
    exact absurd hout (Nat.not_succ_le_self _)

end Codec

/-- **The codec**: what is built is read back exactly when every key is shorter than 64 KiB; and
reading any bytes ends with a value or an error exactly when the assertions are not compiled in,
or no string is cut and no key repeated. -/
theorem amf0_iff (dbg_assert : Bool) :
    (∀ dvar : Amf0Dvar, dvar.Buildable → (RoundTrips dbg_assert dvar ↔ dvar.ShortKeys))
      ∧ ∀ b, Ended dbg_assert b ↔ ¬ (dbg_assert = true ∧ Fails .value b) :=
  ⟨fun _ h => ⟨shortKeys_of_roundTrips, roundTrips_of_shortKeys h⟩, fun _ => ended_iff⟩

/-- A map with the empty key, and one in it. -/
theorem amf0_iff_emptyKey : RoundTrips true (.map [([], .map []), ([97], .string [98])]) :=
  ((amf0_iff true).1 _ (by simp [Amf0Dvar.Buildable, Amf0Dvar.BuildableMap])).2
    (by simp [Amf0Dvar.ShortKeys, Amf0Dvar.ShortKeysMap])

/-- A key of 64 KiB, and a key which comes twice. -/
theorem not_amf0 : ¬ RoundTrips true (.map [(List.replicate 65536 97, .nil)])
    ∧ ¬ Ended true [0x03, 0, 1, 97, 0x05, 0, 1, 97, 0x05, 0, 0, 0x09] := by
  constructor
  · intro h
    have hshort := shortKeys_of_roundTrips h
    rw [Amf0Dvar.ShortKeys, Amf0Dvar.ShortKeysMap, List.length_replicate] at hshort
    exact absurd hshort.1 (by decide)
  · have hnotEnd (b : Datum) : ¬ ([97] = ([] : Datum) ∧ b.head? = some 0x09) :=
      fun h => List.cons_ne_nil _ _ h.1
    have hentry : Reads (.entries [[97]]) ([0, 1] ++ ([97] ++ 0x05 :: [0, 1, 97, 0x05, 0, 0, 0x09]))
        [0, 1, 97, 0x05, 0, 0, 0x09] := .entry rfl rfl (hnotEnd _) (.nil _) (.noEntry _)
    have hagain : Fails (.entries [[97]]) ([0, 1] ++ ([97] ++ 0x05 :: [0, 0, 0x09])) :=
      .again rfl rfl (hnotEnd _) (.nil _) List.mem_cons_self
    exact fun h => ended_iff.1 h ⟨rfl, .object hentry hagain⟩

end Amf0

end Neoip
