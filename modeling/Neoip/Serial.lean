/-
Neoip/Serial.lean

`serial_t`: bytes which are used from both ends, in a memory zone which has
free room on both sides.

The zone is `full_data`; `used_ptr` is kept as an offset in it, which is an
integer: it is a pointer in the source, and nothing keeps a pointer inside the
zone.  Bytes which are stored outside of the zone do not change it.  Lengths
are natural numbers, as those of zones which exist are: a `req_len` near `2 ^ 64`,
with which the sums of the source would wrap, is out of the model.  What fresh
memory holds is a parameter.

`Zone` has the memory operations, over any type of bytes.  `Deque` is what a
`serial_t` is for: a list with both its ends.

Main results: `Serial.inside_headAlloc_iff` (the `memshift` at the head may leave
the zone), `Serial.refines_iff`, over all sequences of calls.
-/
import Mathlib.Data.List.GetD
import Neoip.Bitfield
import Neoip.Run

namespace Neoip

/-! ### Memory zones -/

namespace Zone

variable {α : Type*}

/-- The `len` bytes from `ptr`. -/
def load (zone : List α) (ptr : ℤ) (len : ℕ) : List α := (zone.drop ptr.toNat).take len

/-- `memcpy` of `data` to `ptr`: what is outside of the zone is not in it. -/
def store (zone : List α) (ptr : ℤ) (data : List α) : List α :=
  zone.mapIdx fun i b => if ptr ≤ i then data.getD (i - ptr).toNat b else b

variable {zone data : List α} {ptr ptr' : ℤ} {len len' : ℕ}

@[simp] theorem length_store : (store zone ptr data).length = zone.length := by
  rw [store, List.length_mapIdx]

theorem length_load (hlen : ptr.toNat + len ≤ zone.length) : (load zone ptr len).length = len := by
  rw [load, List.length_take, List.length_drop]
  omega

theorem getElem?_store (i : ℕ) : (store zone ptr data)[i]? =
    zone[i]?.map fun b => if ptr ≤ i then data.getD (i - ptr).toNat b else b := by
  rw [store, List.getElem?_mapIdx]

theorem getElem?_load (i : ℕ) :
    (load zone ptr len)[i]? = if i < len then zone[ptr.toNat + i]? else none := by
  rw [load, List.getElem?_take, List.getElem?_drop]

/-- What was stored is loaded. -/
theorem load_store (hptr : 0 ≤ ptr) (hlen : ptr + data.length ≤ zone.length) :
    load (store zone ptr data) ptr data.length = data := by
  apply List.ext_getElem?
  intro i
  rw [getElem?_load, getElem?_store]
  by_cases hi : i < data.length
  · have hin : ptr.toNat + i < zone.length := by omega
    have hidx : ((ptr.toNat + i : ℕ) - ptr).toNat = i := by omega
    rw [if_pos hi, List.getElem?_eq_getElem hin, Option.map_some, if_pos (by omega), hidx,
      List.getD_eq_getElem _ _ hi, List.getElem?_eq_getElem hi]
  · rw [if_neg hi, List.getElem?_eq_none (by omega)]

/-- What is elsewhere is left. -/
theorem load_store_of_disjoint (hptr : 0 ≤ ptr')
    (h : ptr' + len ≤ ptr ∨ ptr + data.length ≤ ptr') :
    load (store zone ptr data) ptr' len = load zone ptr' len := by
  apply List.ext_getElem?
  intro i
  rw [getElem?_load, getElem?_load, getElem?_store]
  by_cases hi : i < len
  · rw [if_pos hi, if_pos hi]
    rcases zone[ptr'.toNat + i]? with - | b
    · rfl
    · rw [Option.map_some]
      by_cases hle : ptr ≤ (ptr'.toNat + i : ℕ)
      · rw [if_pos hle, List.getD_eq_default _ _ (by omega)]
      · rw [if_neg hle]
  · rw [if_neg hi, if_neg hi]

theorem load_add (hptr : 0 ≤ ptr) :
    load zone ptr (len + len') = load zone ptr len ++ load zone (ptr + len) len' := by
  have hnat : (ptr + len).toNat = ptr.toNat + len := by omega
  rw [load, load, load, List.take_add, List.drop_drop, hnat]

theorem load_drop (hptr : 0 ≤ ptr) (n : ℕ) :
    load zone (ptr + n) (len - n) = (load zone ptr len).drop n := by
  have hnat : (ptr + n).toNat = ptr.toNat + n := by omega
  rw [load, load, List.drop_take, List.drop_drop, hnat]

theorem load_take (hn : len' ≤ len) : load zone ptr len' = (load zone ptr len).take len' := by
  rw [load, load, List.take_take, Nat.min_eq_left hn]

end Zone

/-! ### The abstract deque -/

/-- The calls of a list with both its ends, over the values `α`. -/
inductive DequeCall (α : Type*)
  | headAdd (data : List α)
  | tailAdd (data : List α)
  | headAlloc (req_len : ℕ)
  | tailAlloc (req_len : ℕ)
  | headFree (nbyte : ℕ)
  | tailFree (nbyte : ℕ)
  | headPeek (len : ℕ)
  | tailPeek (len : ℕ)
  | headConsume (len : ℕ)
  | tailConsume (len : ℕ)

namespace DequeCall

variable {α : Type*}

/-- What a call reads or frees is there. -/
def Within (len : ℕ) : DequeCall α → Prop
  | headFree n | tailFree n | headPeek n | tailPeek n | headConsume n | tailConsume n => n ≤ len
  | _ => True

instance decidableWithin (len : ℕ) : ∀ call : DequeCall α, Decidable (call.Within len)
  | headFree n | tailFree n | headPeek n | tailPeek n | headConsume n | tailConsume n =>
    inferInstanceAs (Decidable (n ≤ len))
  | headAdd _ | tailAdd _ | headAlloc _ | tailAlloc _ => inferInstanceAs (Decidable True)

/-- The list after a call; what is allocated may hold anything. -/
def Step (l l' : List α) : DequeCall α → Prop
  | headAdd data => l' = data ++ l
  | tailAdd data => l' = l ++ data
  | headAlloc n => ∃ data, data.length = n ∧ l' = data ++ l
  | tailAlloc n => ∃ data, data.length = n ∧ l' = l ++ data
  | headFree n | headConsume n => l' = l.drop n
  | tailFree n | tailConsume n => l' = l.take (l.length - n)
  | headPeek _ | tailPeek _ => l' = l

/-- What a call returns. -/
def out (l : List α) : DequeCall α → Option (List α)
  | headPeek n | headConsume n => some (l.take n)
  | tailPeek n | tailConsume n => some (l.drop (l.length - n))
  | _ => none

end DequeCall

/-! ### `serial_t` -/

/-- `serial_t`. -/
structure Serial where
  full_data : Datum
  /-- The offset of `used_ptr` in `full_data`. -/
  used_ptr : ℤ
  used_len : ℕ
  grow_length : ℕ
  grow_length_pos : 0 < grow_length

namespace Serial

/-- `INIT_LENGTH_DFL`. -/
def initLengthDfl : ℕ := 256

/-- `GROW_LENGTH_DFL`. -/
def growLengthDfl : ℕ := 256

/-- `full_length`. -/
def fullLength (s : Serial) : ℕ := s.full_data.length

/-- `head_freelen`. -/
def headFreelen (s : Serial) : ℤ := s.used_ptr

/-- `tail_freelen`. -/
def tailFreelen (s : Serial) : ℤ := s.fullLength - s.headFreelen - s.used_len

/-- The used bytes. -/
def content (s : Serial) : Datum := Zone.load s.full_data s.used_ptr s.used_len

/-- What `fresh` memory of this length holds. -/
def freshData (fresh : ℕ → UInt8) (len : ℕ) : Datum := (List.range len).map fresh

variable (fresh : ℕ → UInt8)

/-- `allocate_ctor`. -/
def allocateCtor (new_init_length new_head_length new_grow_length : ℕ)
    (hpos : 0 < new_grow_length) : Serial where
  full_data := freshData fresh new_init_length
  used_ptr := new_head_length
  used_len := 0
  grow_length := new_grow_length
  grow_length_pos := hpos

/-- `tail_add` of bytes for which there is room at the tail. -/
def tailPut (s : Serial) (data : Datum) : Serial :=
  { s with
    full_data := Zone.store s.full_data (s.used_ptr + s.used_len) data
    used_len := s.used_len + data.length }

/-- `ceil_div`. -/
def ceilDiv (num div : ℕ) : ℕ := (num + (div - 1)) / div

/-- The `new_full_length` of `reallocate`. -/
def newFullLength (s : Serial) (new_used_length : ℕ) : ℕ :=
  if new_used_length ≤ initLengthDfl then initLengthDfl
  else s.grow_length * ceilDiv new_used_length s.grow_length

/-- `reallocate`: the used data is added to a new zone, which has room for it. -/
def reallocate (s : Serial) (head_inclen tail_inclen : ℕ) : Serial :=
  let new_used_length := s.used_len + head_inclen + tail_inclen
  let new_full_length := s.newFullLength new_used_length
  let new_free_length := new_full_length - new_used_length
  tailPut
    (allocateCtor fresh new_full_length (new_free_length / 2 + head_inclen) s.grow_length
      s.grow_length_pos)
    s.content

/-- The `memshift` of `head_alloc`. -/
def headMemshift (s : Serial) (req_len : ℕ) : Serial :=
  let new_free_len := s.headFreelen + s.tailFreelen - req_len
  let new_used_ptr := 2 * new_free_len / 3
  { s with full_data := Zone.store s.full_data new_used_ptr s.content, used_ptr := new_used_ptr }

/-- `head_alloc`. -/
def headAlloc (s : Serial) (req_len : ℕ) : Serial :=
  let s :=
    if s.headFreelen < req_len then
      if s.tailFreelen + s.headFreelen < req_len then s.reallocate fresh req_len 0
      else s.headMemshift req_len
    else s
  { s with used_ptr := s.used_ptr - req_len, used_len := s.used_len + req_len }

/-- The `memshift` of `tail_alloc`. -/
def tailMemshift (s : Serial) : Serial :=
  { s with full_data := Zone.store s.full_data 0 s.content, used_ptr := 0 }

/-- `tail_alloc`. -/
def tailAlloc (s : Serial) (req_len : ℕ) : Serial :=
  let s :=
    if s.tailFreelen < req_len then
      if s.headFreelen + s.tailFreelen < req_len then s.reallocate fresh 0 req_len
      else s.tailMemshift
    else s
  { s with used_len := s.used_len + req_len }

/-- `head_free`. -/
def headFree (s : Serial) (nbyte : ℕ) : Serial :=
  { s with used_ptr := s.used_ptr + nbyte, used_len := s.used_len - nbyte }

/-- `tail_free`. -/
def tailFree (s : Serial) (nbyte : ℕ) : Serial := { s with used_len := s.used_len - nbyte }

/-- `head_add`. -/
def headAdd (s : Serial) (data : Datum) : Serial :=
  let s := s.headAlloc fresh data.length
  { s with full_data := Zone.store s.full_data s.used_ptr data }

/-- `tail_add`. -/
def tailAdd (s : Serial) (data : Datum) : Serial :=
  let s := s.tailAlloc fresh data.length
  { s with full_data := Zone.store s.full_data (s.used_ptr + s.used_len - data.length) data }

/-- `range`: an exception when the bytes are not there. -/
def range (s : Serial) (offset len : ℕ) : Option Datum :=
  if offset + len > s.used_len then none
  else some (Zone.load s.full_data (s.used_ptr + offset) len)

/-- `head_peek`. -/
def headPeek (s : Serial) (len : ℕ) : Option Datum := s.range 0 len

/-- `tail_peek`. -/
def tailPeek (s : Serial) (len : ℕ) : Option Datum := s.range (s.used_len - len) len

/-- The state after a call; `head_consume` and `tail_consume` peek, then free. -/
def step (s : Serial) : DequeCall UInt8 → Serial
  | .headAdd data => s.headAdd fresh data
  | .tailAdd data => s.tailAdd fresh data
  | .headAlloc req_len => s.headAlloc fresh req_len
  | .tailAlloc req_len => s.tailAlloc fresh req_len
  | .headFree nbyte | .headConsume nbyte => s.headFree nbyte
  | .tailFree nbyte | .tailConsume nbyte => s.tailFree nbyte
  | .headPeek _ | .tailPeek _ => s

/-- What a call returns. -/
def out (s : Serial) : DequeCall UInt8 → Option Datum
  | .headPeek len | .headConsume len => s.headPeek len
  | .tailPeek len | .tailConsume len => s.tailPeek len
  | _ => none

end Serial

/-- The constructors, with what they assert. -/
inductive SerialCtor
  | default
  | prealloc (new_init_length new_head_length new_grow_length : ℕ) (hinit : 0 < new_init_length)
      (hhead : new_head_length ≤ new_init_length) (hgrow : 0 < new_grow_length)
  | docopy (data : Datum)
  | nocopy (data : Datum)

namespace Serial

/-- The null object. -/
def null : Serial where
  full_data := []
  used_ptr := 0
  used_len := 0
  grow_length := growLengthDfl
  grow_length_pos := by decide

def ofCtor (fresh : ℕ → UInt8) : SerialCtor → Serial
  | .default => null
  | .prealloc new_init_length new_head_length new_grow_length _ _ hgrow =>
    allocateCtor fresh new_init_length new_head_length new_grow_length hgrow
  | .docopy data =>
    if data.length = 0 then null
    else (allocateCtor fresh data.length 0 growLengthDfl (by decide)).tailAdd fresh data
  | .nocopy data => { null with full_data := data, used_len := data.length }

/-! ### The used region -/

/-- The used region is inside of the zone. -/
structure Inside (s : Serial) : Prop where
  beg : 0 ≤ s.used_ptr
  len : s.used_ptr + s.used_len ≤ s.fullLength

/-- The same bytes, elsewhere. -/
structure Moved (s s' : Serial) : Prop where
  inside : s'.Inside
  content : s'.content = s.content
  used_len : s'.used_len = s.used_len

section Region

variable {fresh : ℕ → UInt8} {s : Serial} {data : Datum} {n : ℕ}

theorem Inside.length_content (h : s.Inside) : s.content.length = s.used_len := by
  have := h.beg
  have := h.len
  apply Zone.length_load
  rw [fullLength] at this
  omega

/-- Bytes put at the tail, where there is room for them. -/
theorem tailPut_spec (h : s.Inside) (hroom : data.length ≤ s.tailFreelen) :
    (s.tailPut data).Inside ∧ (s.tailPut data).content = s.content ++ data := by
  have hbeg := h.beg
  rw [tailFreelen, headFreelen] at hroom
  refine ⟨⟨hbeg, ?_⟩, ?_⟩
  · rw [fullLength, tailPut]
    simp only [Zone.length_store, Nat.cast_add]
    rw [fullLength] at hroom
    omega
  · rw [fullLength] at hroom
    show Zone.load (Zone.store _ _ _) s.used_ptr (s.used_len + data.length) = _
    rw [Zone.load_add hbeg, Zone.load_store_of_disjoint hbeg (.inl (le_refl _)),
      Zone.load_store (by omega) (by omega)]
    rfl

theorem le_newFullLength : n ≤ s.newFullLength n := by
  rw [newFullLength]
  split_ifs with h
  · exact h
  · have hdiv := Nat.div_add_mod (n + (s.grow_length - 1)) s.grow_length
    have hmod := Nat.mod_lt (n + (s.grow_length - 1)) s.grow_length_pos
    rw [ceilDiv]
    omega

@[simp] theorem length_freshData : (freshData fresh n).length = n := by
  rw [freshData, List.length_map, List.length_range]

/-- **A reallocation** keeps the bytes, and has the room which it was asked for. -/
theorem reallocate_spec (h : s.Inside) (head_inclen tail_inclen : ℕ) :
    Moved s (s.reallocate fresh head_inclen tail_inclen) ∧
      head_inclen ≤ (s.reallocate fresh head_inclen tail_inclen).headFreelen ∧
      tail_inclen ≤ (s.reallocate fresh head_inclen tail_inclen).tailFreelen := by
  have hfull := le_newFullLength (s := s) (n := s.used_len + head_inclen + tail_inclen)
  have hlen := h.length_content
  generalize hnew : s.newFullLength (s.used_len + head_inclen + tail_inclen) = new at hfull
  have hnewzone : (allocateCtor fresh new
      ((new - (s.used_len + head_inclen + tail_inclen)) / 2 + head_inclen) s.grow_length
        s.grow_length_pos).Inside := by
    refine ⟨Int.natCast_nonneg _, ?_⟩
    simp only [allocateCtor, fullLength, length_freshData]
    omega
  obtain ⟨hin, hcont⟩ := @tailPut_spec _ s.content hnewzone (by
    simp only [allocateCtor, tailFreelen, headFreelen, fullLength, length_freshData, hlen]
    omega)
  rw [reallocate]
  simp only [hnew]
  refine ⟨⟨hin, ?_, ?_⟩, ?_, ?_⟩
  · rw [hcont]
    rfl
  · show 0 + s.content.length = _
    rw [Nat.zero_add, hlen]
  · simp only [tailPut, allocateCtor, headFreelen]
    omega
  · simp only [tailPut, allocateCtor, tailFreelen, headFreelen, fullLength, Zone.length_store,
      length_freshData, hlen]
    omega

/-- The used data are moved to `ptr`, from where there is room for them. -/
theorem moved_store (h : s.Inside) {ptr : ℤ} (hbeg : 0 ≤ ptr)
    (hlen : ptr + s.used_len ≤ s.fullLength) :
    Moved s { s with full_data := Zone.store s.full_data ptr s.content, used_ptr := ptr } := by
  have hcont := h.length_content
  refine ⟨⟨hbeg, ?_⟩, ?_, rfl⟩
  · simp only [fullLength, Zone.length_store]
    exact hlen
  · have hload := @Zone.load_store _ s.full_data _ _ hbeg (by
      rw [hcont]
      exact hlen)
    rw [hcont] at hload
    exact hload

/-- The room at the head is there, or the zone is too small, or two fifths of the free room
are enough: what the `memshift` leaves at the head is two thirds of the room which is free
once the request is served. -/
def HeadRoom (s : Serial) (req_len : ℕ) : Prop :=
  req_len ≤ s.headFreelen ∨ s.headFreelen + s.tailFreelen < req_len ∨
    5 * (req_len : ℤ) ≤ 2 * (s.headFreelen + s.tailFreelen)

theorem headAlloc_spec (h : s.Inside) (hroom : s.HeadRoom n) : ∃ s', Moved s s' ∧
    n ≤ s'.headFreelen ∧
      s.headAlloc fresh n = { s' with used_ptr := s'.used_ptr - n, used_len := s'.used_len + n } := by
  have hbeg := h.beg
  have hlen := h.len
  rw [headAlloc]
  split_ifs with hhead hfull
  · obtain ⟨hmoved, hge, -⟩ := reallocate_spec h n 0
    exact ⟨_, hmoved, hge, rfl⟩
  · -- the shift leaves enough room
    have hfive : 5 * (n : ℤ) ≤ 2 * (s.headFreelen + s.tailFreelen) := by
      rcases hroom with hroom | hroom | hroom <;> omega
    rw [headFreelen, tailFreelen, headFreelen] at hfive
    refine ⟨_, moved_store h ?_ ?_, ?_, rfl⟩ <;> simp only [headFreelen, tailFreelen] <;> omega
  · exact ⟨s, ⟨h, rfl, rfl⟩, not_lt.1 hhead, rfl⟩

theorem tailAlloc_spec (h : s.Inside) (n : ℕ) : ∃ s', Moved s s' ∧ n ≤ s'.tailFreelen ∧
    s.tailAlloc fresh n = { s' with used_len := s'.used_len + n } := by
  have hbeg := h.beg
  have hlen := h.len
  rw [tailAlloc]
  split_ifs with htail hfull
  · obtain ⟨hmoved, -, hge⟩ := reallocate_spec h 0 n
    exact ⟨_, hmoved, hge, rfl⟩
  · rw [headFreelen, tailFreelen, headFreelen] at hfull
    refine ⟨_, moved_store h (le_refl _) ?_, ?_, rfl⟩
    · omega
    · simp only [tailFreelen, headFreelen, fullLength, Zone.length_store]
      rw [fullLength] at hfull
      omega
  · exact ⟨s, ⟨h, rfl, rfl⟩, not_lt.1 htail, rfl⟩

/-- **The slip of `head_alloc`**: beyond that room the shifted pointer, less the request, is
before the zone. -/
theorem inside_headAlloc_iff (h : s.Inside) : (s.headAlloc fresh n).Inside ↔ s.HeadRoom n := by
  constructor
  · intro hin
    by_contra hroom
    rw [HeadRoom, not_or, not_or, not_le, not_lt, not_le] at hroom
    obtain ⟨hhead, hfull, hfive⟩ := hroom
    have hbeg := hin.beg
    rw [headAlloc, if_pos hhead, if_neg (by omega)] at hbeg
    simp only [headMemshift, headFreelen, tailFreelen] at hbeg hfull hfive
    omega
  · intro hroom
    obtain ⟨s', hmoved, hge, heq⟩ := headAlloc_spec h hroom
    have hlen := hmoved.inside.len
    rw [headFreelen] at hge
    rw [heq]
    refine ⟨?_, ?_⟩
    · simp only []
      omega
    · simp only [fullLength, Nat.cast_add] at hlen ⊢
      omega

theorem content_headAlloc (h : s.Inside) (hroom : s.HeadRoom n) :
    ∃ data, data.length = n ∧ (s.headAlloc fresh n).content = data ++ s.content := by
  obtain ⟨s', hmoved, hge, heq⟩ := headAlloc_spec h hroom
  have hlen := hmoved.inside.len
  rw [headFreelen] at hge
  rw [fullLength] at hlen
  have hptr : s'.used_ptr - n + n = s'.used_ptr := by omega
  refine ⟨Zone.load s'.full_data (s'.used_ptr - n) n, Zone.length_load (by omega), ?_⟩
  rw [heq, ← hmoved.content]
  simp only [content]
  rw [Nat.add_comm, Zone.load_add (by omega), hptr]

theorem headAdd_spec (h : s.Inside) (hroom : s.HeadRoom data.length) :
    (s.headAdd fresh data).Inside ∧ (s.headAdd fresh data).content = data ++ s.content := by
  obtain ⟨s', hmoved, hge, heq⟩ := headAlloc_spec h hroom
  have hin := (@inside_headAlloc_iff fresh _ _ h).2 hroom
  have hlen := hmoved.inside.len
  rw [headFreelen] at hge
  rw [fullLength] at hlen
  have hptr : s'.used_ptr - data.length + data.length = s'.used_ptr := by omega
  refine ⟨⟨hin.beg, ?_⟩, ?_⟩
  · simp only [headAdd, fullLength, Zone.length_store]
    exact hin.len
  · rw [headAdd, heq, ← hmoved.content]
    simp only [content]
    rw [Nat.add_comm, Zone.load_add (by omega), hptr, Zone.load_store (by omega) (by omega),
      Zone.load_store_of_disjoint (by omega) (.inr (by omega))]

theorem tailAlloc_cases (h : s.Inside) (n : ℕ) : (s.tailAlloc fresh n).Inside ∧
    ∃ data, data.length = n ∧ (s.tailAlloc fresh n).content = s.content ++ data := by
  obtain ⟨s', hmoved, hge, heq⟩ := tailAlloc_spec h n
  have hbeg := hmoved.inside.beg
  rw [tailFreelen, headFreelen, fullLength] at hge
  rw [heq, ← hmoved.content]
  refine ⟨⟨hbeg, ?_⟩, Zone.load s'.full_data (s'.used_ptr + s'.used_len) n,
    Zone.length_load (by omega), Zone.load_add hbeg⟩
  simp only [fullLength, Nat.cast_add]
  omega

theorem tailAdd_spec (h : s.Inside) (data : Datum) :
    (s.tailAdd fresh data).Inside ∧ (s.tailAdd fresh data).content = s.content ++ data := by
  obtain ⟨s', hmoved, hge, heq⟩ := tailAlloc_spec h data.length
  obtain ⟨hin, hcont⟩ := tailPut_spec hmoved.inside hge
  have htail : s.tailAdd fresh data = s'.tailPut data := by
    rw [tailAdd, heq, tailPut]
    simp only [Nat.cast_add]
    congr 2
    omega
  rw [htail, ← hmoved.content]
  exact ⟨hin, hcont⟩

theorem headFree_spec (h : s.Inside) (hn : n ≤ s.used_len) :
    (s.headFree n).Inside ∧ (s.headFree n).content = s.content.drop n := by
  have hbeg := h.beg
  have hlen := h.len
  refine ⟨⟨?_, ?_⟩, Zone.load_drop hbeg n⟩
  · simp only [headFree]
    omega
  · rw [fullLength] at hlen
    simp only [headFree, fullLength]
    omega

theorem tailFree_spec (h : s.Inside) (hn : n ≤ s.used_len) :
    (s.tailFree n).Inside ∧
      (s.tailFree n).content = s.content.take (s.content.length - n) := by
  have hlen := h.len
  refine ⟨⟨h.beg, ?_⟩, ?_⟩
  · rw [fullLength] at hlen
    simp only [tailFree, fullLength]
    omega
  · rw [h.length_content]
    exact Zone.load_take (Nat.sub_le _ _)

theorem range_eq (h : s.Inside) {offset len : ℕ} (hlen : offset + len ≤ s.used_len) :
    s.range offset len = some ((s.content.drop offset).take len) := by
  rw [range, if_neg (by omega), content, ← Zone.load_drop h.beg, ← Zone.load_take (by omega)]

theorem headPeek_eq (h : s.Inside) (hn : n ≤ s.used_len) :
    s.headPeek n = some (s.content.take n) := by
  rw [headPeek, range_eq h (by omega), List.drop_zero]

theorem tailPeek_eq (h : s.Inside) (hn : n ≤ s.used_len) :
    s.tailPeek n = some (s.content.drop (s.content.length - n)) := by
  rw [tailPeek, range_eq h (by omega), h.length_content, List.take_of_length_le]
  rw [List.length_drop, h.length_content]
  omega

end Region

/-! ### Runs -/

section Runs

variable (fresh : ℕ → UInt8)

/-- In every state the used region is in the zone, and every call does to the content what it
does to a list, and returns what it returns of a list. -/
def Refines : Serial → List (DequeCall UInt8) → Prop
  | s, [] => s.Inside
  | s, call :: calls =>
    s.Inside ∧ DequeCall.Step s.content (s.step fresh call).content call ∧
      s.out call = DequeCall.out s.content call ∧ Refines (s.step fresh call) calls

/-- A call which makes room at the head finds enough of it. -/
def Room (s : Serial) : DequeCall UInt8 → Prop
  | .headAdd data => s.HeadRoom data.length
  | .headAlloc req_len => s.HeadRoom req_len
  | _ => True

variable {fresh} {s : Serial} {call : DequeCall UInt8}

theorem Refines.inside {calls : List (DequeCall UInt8)} (h : Refines fresh s calls) : s.Inside := by
  cases calls with
  | nil => exact h
  | cons call calls => exact h.1

/-- What a call returns is what it returns of a list. -/
theorem out_eq (h : s.Inside) (hwithin : call.Within s.used_len) :
    s.out call = DequeCall.out s.content call := by
  cases call with
  | headPeek len => exact headPeek_eq h hwithin
  | tailPeek len => exact tailPeek_eq h hwithin
  | headConsume len => exact headPeek_eq h hwithin
  | tailConsume len => exact tailPeek_eq h hwithin
  | _ => rfl

/-- A call with its room does to the content what it does to a list. -/
theorem step_spec (h : s.Inside) (hwithin : call.Within s.used_len) (hroom : s.Room call) :
    (s.step fresh call).Inside ∧ DequeCall.Step s.content (s.step fresh call).content call := by
  cases call with
  | headAdd data => exact headAdd_spec h hroom
  | tailAdd data => exact tailAdd_spec h data
  | headAlloc n => exact ⟨(inside_headAlloc_iff h).2 hroom, content_headAlloc h hroom⟩
  | tailAlloc n => exact tailAlloc_cases h n
  | headFree n => exact headFree_spec h hwithin
  | tailFree n => exact tailFree_spec h hwithin
  | headPeek n => exact ⟨h, rfl⟩
  | tailPeek n => exact ⟨h, rfl⟩
  | headConsume n => exact headFree_spec h hwithin
  | tailConsume n => exact tailFree_spec h hwithin

/-- A call without it leaves the zone. -/
theorem room_of_inside_step (h : s.Inside) (hin : (s.step fresh call).Inside) : s.Room call := by
  cases call with
  | headAdd data =>
    refine (inside_headAlloc_iff h).1 ⟨hin.beg, ?_⟩
    have hlen := hin.len
    simp only [step, headAdd, fullLength, Zone.length_store] at hlen
    exact hlen
  | headAlloc n => exact (inside_headAlloc_iff h).1 hin
  | _ => trivial

theorem refines_iff_guarded (h : s.Inside) {calls : List (DequeCall UInt8)}
    (hwithin : Guarded (step fresh) (fun s call => call.Within s.used_len) s calls) :
    Refines fresh s calls ↔ Guarded (step fresh) Room s calls := by
  induction calls generalizing s with
  | nil => exact iff_of_true h trivial
  | cons call calls ih =>
    rw [Refines, guarded_cons]
    constructor
    · rintro ⟨-, -, -, hrest⟩
      exact ⟨room_of_inside_step h hrest.inside, (ih hrest.inside hwithin.2).1 hrest⟩
    · rintro ⟨hroom, hrest⟩
      obtain ⟨hin, hstep⟩ := step_spec h hwithin.1 hroom
      exact ⟨h, hstep, out_eq h hwithin.1, (ih hin hwithin.2).2 hrest⟩

theorem inside_null : null.Inside := ⟨le_refl _, le_refl _⟩

theorem inside_ofCtor (fresh : ℕ → UInt8) (ctor : SerialCtor) : (ofCtor fresh ctor).Inside := by
  cases ctor with
  | default => exact inside_null
  | prealloc new_init_length new_head_length new_grow_length hinit hhead hgrow =>
    refine ⟨Int.natCast_nonneg _, ?_⟩
    simp only [ofCtor, allocateCtor, fullLength, length_freshData]
    omega
  | docopy data =>
    rw [ofCtor]
    split_ifs
    · exact inside_null
    · refine (tailAdd_spec ⟨le_refl _, ?_⟩ data).1
      exact Int.natCast_nonneg _
  | nocopy data =>
    refine ⟨le_refl _, ?_⟩
    simp only [ofCtor, null, fullLength]
    omega

/-- **A `serial_t` is a deque** exactly when every call which makes room at the head finds
enough of it. -/
theorem refines_iff (fresh : ℕ → UInt8) (ctor : SerialCtor) (calls : List (DequeCall UInt8))
    (hwithin : Guarded (step fresh) (fun s call => call.Within s.used_len) (ofCtor fresh ctor)
      calls) :
    Refines fresh (ofCtor fresh ctor) calls ↔
      Guarded (step fresh) Room (ofCtor fresh ctor) calls :=
  refines_iff_guarded (inside_ofCtor fresh ctor) hwithin

/-- A header which is prepended to a packet, and both are read back. -/
theorem refines_iff_sample :
    Refines (fun _ => 0) (ofCtor (fun _ => 0) (.prealloc 8 2 256 (by decide) (by decide) (by decide)))
        [.tailAdd [3, 4], .headAdd [1, 2], .headConsume 3, .tailFree 1] ↔
      Guarded (step fun _ => 0) Room
        (ofCtor (fun _ => 0) (.prealloc 8 2 256 (by decide) (by decide) (by decide)))
        [.tailAdd [3, 4], .headAdd [1, 2], .headConsume 3, .tailFree 1] :=
  refines_iff _ _ _ (by decide)

/-- Ten free bytes, all at the tail: the shift moves nothing, and the pointer leaves the zone. -/
theorem not_refines :
    Guarded (step fun _ => 0) (fun s call => call.Within s.used_len)
        (ofCtor (fun _ => 0) (.prealloc 10 0 256 (by decide) (by decide) (by decide)))
        [.headAlloc 10] ∧
      ¬ Refines (fun _ => 0)
        (ofCtor (fun _ => 0) (.prealloc 10 0 256 (by decide) (by decide) (by decide)))
        [.headAlloc 10] := by
  refine ⟨by decide, fun h => ?_⟩
  have hbeg := h.2.2.2.beg
  exact absurd hbeg (by decide)

end Runs

end Serial

end Neoip
