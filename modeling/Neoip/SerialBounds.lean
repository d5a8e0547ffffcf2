/-
Neoip/SerialBounds.lean

What a `serial_t` does when it is asked for more bytes than it has, and
`unserial_peek`.

The lengths and the offsets of the calls are words of `w` bits, the width of a
`size_t`, and their arithmetic wraps.  The assertions are compiled or not,
`dbg_assert`; a failed one is `aborted`, the bytes of a pointer which has left
the zone are `outside`.

An `operator >>` is an `Unserial`: it looks at the length, takes bytes from the
head, throws, or is done.  On the bytes it is `parse`, and what it leaves of
them when it throws says whether it has taken any (`ThrowsFirst`).

Main results: `raises_iff`, `peekKeeps_iff`.
-/
import Neoip.Serial

namespace Neoip

/-! ### Calls -/

/-- What comes of a call. -/
inductive SerialAccess
  | data (datum : Datum)
  | freed
  | raised (what : String)
  | aborted
  | outside
deriving DecidableEq, Repr

/-- The calls which are given a length. -/
inductive SerialBoundCall (w : ℕ)
  | range (offset len : BitVec w)
  | headPeek (len : BitVec w)
  | tailPeek (len : BitVec w)
  | headConsume (len : BitVec w)
  | tailConsume (len : BitVec w)
  | consume (len : BitVec w)
deriving DecidableEq

namespace SerialBounds

variable (dbg_assert : Bool) {w : ℕ}

/-- `used_length()`. -/
def usedLength (w : ℕ) (s : Serial) : BitVec w := BitVec.ofNat w s.used_len

/-- The bytes of a `datum_t` which is made of a pointer in the zone.  A pointer which wraps around
may come back into the zone; it is `outside` all the same. -/
def datumAt (s : Serial) (ptr : ℤ) (len : ℕ) : SerialAccess :=
  if 0 ≤ ptr ∧ ptr + len ≤ s.fullLength then .data (Zone.load s.full_data ptr len) else .outside

def range (s : Serial) (offset len : BitVec w) : SerialAccess :=
  if usedLength w s < offset + len then .raised "ByteArray too short."
  else datumAt s (s.used_ptr + offset.toNat) len.toNat

def headPeek (s : Serial) (len : BitVec w) : SerialAccess :=
  if dbg_assert && decide (usedLength w s < len) then .aborted else range s 0 len

def tailPeek (s : Serial) (len : BitVec w) : SerialAccess :=
  if dbg_assert && decide (usedLength w s < len) then .aborted
  else range s (usedLength w s - len) len

/-- None when the assertion fails. -/
def headFree (s : Serial) (nbyte : BitVec w) : Option Serial :=
  if dbg_assert && decide (usedLength w s < nbyte) then none
  else some { s with
    used_ptr := s.used_ptr + nbyte.toNat
    used_len := (usedLength w s - nbyte).toNat }

def tailFree (s : Serial) (nbyte : BitVec w) : Option Serial :=
  if dbg_assert && decide (usedLength w s < nbyte) then none
  else some { s with used_len := (usedLength w s - nbyte).toNat }

/-- The bytes are freed once they have been peeked, unless this threw. -/
def consumed (peeked : SerialAccess) (s : Serial) (free : Option Serial) : SerialAccess × Serial :=
  match peeked, free with
  | .raised what, _ => (.raised what, s)
  | .aborted, _ => (.aborted, s)
  | _, none => (.aborted, s)
  | peeked, some s' => (peeked, s')

def exec (s : Serial) : SerialBoundCall w → SerialAccess × Serial
  | .range offset len => (range s offset len, s)
  | .headPeek len => (headPeek dbg_assert s len, s)
  | .tailPeek len => (tailPeek dbg_assert s len, s)
  | .headConsume len => consumed (headPeek dbg_assert s len) s (headFree dbg_assert s len)
  | .tailConsume len => consumed (tailPeek dbg_assert s len) s (tailFree dbg_assert s len)
  | .consume len => consumed .freed s (headFree dbg_assert s len)

end SerialBounds

namespace SerialBoundCall

variable {w : ℕ}

/-- More bytes are asked for than are present. -/
def Beyond (used_len : ℕ) : SerialBoundCall w → Prop
  | range offset len => used_len < offset.toNat + len.toNat
  | headPeek len | tailPeek len | headConsume len | tailConsume len | consume len =>
    used_len < len.toNat

/-- The length is checked by a comparison which does not wrap, and without an assertion. -/
def Caught (dbg_assert : Bool) (used_len : ℕ) : SerialBoundCall w → Prop
  | range offset len => used_len < (offset + len).toNat
  | headPeek _ | headConsume _ => dbg_assert = false
  | tailPeek _ | tailConsume _ | consume _ => False

end SerialBoundCall

namespace SerialBounds

variable {dbg_assert : Bool} {w : ℕ} {s : Serial} {call : SerialBoundCall w}

/-- A call which asks for too many bytes throws, and leaves the content. -/
def Raises (dbg_assert : Bool) (s : Serial) (call : SerialBoundCall w) : Prop :=
  call.Beyond s.used_len →
    (∃ what, (exec dbg_assert s call).1 = .raised what) ∧
      (exec dbg_assert s call).2.content = s.content

theorem usedLength_lt_iff (hlen : s.used_len < 2 ^ w) (len : BitVec w) :
    usedLength w s < len ↔ s.used_len < len.toNat := by
  rw [BitVec.lt_def, usedLength, BitVec.toNat_ofNat, Nat.mod_eq_of_lt hlen]

theorem range_eq_raised_iff (hlen : s.used_len < 2 ^ w) {offset len : BitVec w} {what : String} :
    range s offset len = .raised what ↔
      s.used_len < (offset + len).toNat ∧ what = "ByteArray too short." := by
  rw [range, ← usedLength_lt_iff hlen]
  split_ifs with h
  · rw [SerialAccess.raised.injEq]
    exact ⟨fun heq => ⟨h, heq.symm⟩, fun heq => heq.2.symm⟩
  · refine iff_of_false ?_ fun heq => h heq.1
    rw [datumAt]
    split_ifs <;> nofun

/-- The offset of `tail_peek` wraps, and its sum with the length is the length which is there. -/
theorem tailPeek_ne_raised (len : BitVec w) (what : String) :
    tailPeek dbg_assert s len ≠ .raised what := by
  rw [tailPeek]
  split_ifs
  · nofun
  · rw [range, BitVec.sub_add_cancel, if_neg (BitVec.lt_irrefl _), datumAt]
    split_ifs <;> nofun

theorem headPeek_eq_raised_iff (hlen : s.used_len < 2 ^ w) {len : BitVec w}
    (hbeyond : s.used_len < len.toNat) :
    (∃ what, headPeek dbg_assert s len = .raised what) ↔ dbg_assert = false := by
  have hlt := (usedLength_lt_iff hlen len).2 hbeyond
  rw [headPeek, decide_eq_true hlt, Bool.and_true]
  cases dbg_assert
  · refine iff_of_true ⟨_, (range_eq_raised_iff hlen).2 ⟨?_, rfl⟩⟩ rfl
    show s.used_len < (0#w + len).toNat
    rw [BitVec.zero_add]
    exact hbeyond
  · refine iff_of_false ?_ nofun
    rintro ⟨what, heq⟩
    cases heq

/-- A call which frees throws where its peek does, and then frees nothing. -/
theorem consumed_eq_raised_iff {peeked : SerialAccess} {free : Option Serial} {what : String} :
    (consumed peeked s free).1 = .raised what ↔ peeked = .raised what := by
  cases peeked <;> cases free <;> simp [consumed]

theorem consumed_raised {what : String} {free : Option Serial} :
    (consumed (.raised what) s free).2 = s := by
  cases free <;> rfl

/-- **Bounded access**: a call which asks for too many bytes throws exactly when its check
does not wrap, and is not an assertion. -/
theorem raises_iff (hlen : s.used_len < 2 ^ w) :
    Raises dbg_assert s call ↔
      (call.Beyond s.used_len → call.Caught dbg_assert s.used_len) := by
  refine forall_congr' fun hbeyond => ?_
  cases call with
  | range offset len =>
    constructor
    · rintro ⟨⟨what, hraised⟩, -⟩
      exact ((range_eq_raised_iff hlen).1 hraised).1
    · exact fun h => ⟨⟨_, (range_eq_raised_iff hlen).2 ⟨h, rfl⟩⟩, rfl⟩
  | headPeek len =>
    refine Iff.trans ?_ (headPeek_eq_raised_iff hlen hbeyond)
    exact ⟨fun h => h.1, fun h => ⟨h, rfl⟩⟩
  | tailPeek len =>
    refine iff_of_false ?_ id
    rintro ⟨⟨what, hraised⟩, -⟩
    exact tailPeek_ne_raised len what hraised
  | headConsume len =>
    refine Iff.trans ?_ (headPeek_eq_raised_iff hlen hbeyond)
    constructor
    · rintro ⟨⟨what, hraised⟩, -⟩
      exact ⟨what, consumed_eq_raised_iff.1 hraised⟩
    · rintro ⟨what, hraised⟩
      refine ⟨⟨what, consumed_eq_raised_iff.2 hraised⟩, ?_⟩
      rw [exec, hraised, consumed_raised]
  | tailConsume len =>
    refine iff_of_false ?_ id
    rintro ⟨⟨what, hraised⟩, -⟩
    exact tailPeek_ne_raised len what (consumed_eq_raised_iff.1 hraised)
  | consume len =>
    refine iff_of_false ?_ id
    rintro ⟨⟨what, hraised⟩, -⟩
    cases consumed_eq_raised_iff.1 hraised

end SerialBounds

/-! ### `unserial_peek` -/

theorem Serial.headFree_zero (s : Serial) : s.headFree 0 = s := by
  rw [headFree, Nat.cast_zero, add_zero, Nat.sub_zero]

theorem Serial.headFree_headFree (s : Serial) (n k : ℕ) :
    (s.headFree n).headFree k = s.headFree (n + k) := by
  rw [headFree, headFree, headFree, Nat.cast_add, add_assoc, Nat.sub_sub]

/-- An `operator >>`. -/
inductive Unserial (α : Type*)
  | done (val : α)
  | throw (what : String)
  /-- `serial.length()`. -/
  | length (next : ℕ → Unserial α)
  /-- The check of the payload length, and `n` bytes which are read and freed. -/
  | read (n : ℕ) (what : String) (next : Datum → Unserial α)

namespace Unserial

variable {α : Type*}

/-- An `operator >>` on a serial: the value or the exception, and the serial after it. -/
def run : Unserial α → Serial → Except String α × Serial
  | done val, s => (.ok val, s)
  | throw what, s => (.error what, s)
  | length next, s => (next s.used_len).run s
  | read n what next, s =>
    if s.used_len < n then (.error what, s)
    else (next (s.content.take n)).run (s.headFree n)

/-- An `operator >>` on the bytes of a serial. -/
def parse : Unserial α → Datum → Except String α
  | done val, _ => .ok val
  | throw what, _ => .error what
  | length next, word => (next word.length).parse word
  | read n what next, word =>
    if word.length < n then .error what else (next (word.take n)).parse (word.drop n)

/-- It throws before it has read a byte, having looked at the length only. -/
def ThrowsFirst : Unserial α → ℕ → Prop
  | done _, _ => False
  | throw _, _ => True
  | length next, len => (next len).ThrowsFirst len
  | read n _ next, len => len < n ∨ n = 0 ∧ (next []).ThrowsFirst len

/-- `serial >> uint32_t`. -/
def uint32 (next : ℕ → Unserial α) : Unserial α :=
  read 4 "uint32_t Payload Too Short" fun bytes =>
    next (bytes.foldl (fun val b => val * 256 + b.toNat) 0)

/-- `serial >> std::string`. -/
def stdString : Unserial Datum :=
  uint32 fun len => read len "std::string Payload Too Short" done

variable {u : Unserial α} {s : Serial}

/-- **An unserialisation** gives what the bytes of the serial are parsed to, and frees bytes at the
head; if it throws, it has freed none exactly when it throws first. -/
theorem run_spec (u : Unserial α) (h : s.Inside) :
    (u.run s).1 = u.parse s.content ∧
      ∃ n ≤ s.used_len, (u.run s).2 = s.headFree n ∧
        ∀ what, (u.run s).1 = .error what → (n = 0 ↔ u.ThrowsFirst s.used_len) := by
  induction u generalizing s with
  | done val => exact ⟨rfl, 0, Nat.zero_le _, by rw [run, Serial.headFree_zero], nofun⟩
  | throw what =>
    exact ⟨rfl, 0, Nat.zero_le _, by rw [run, Serial.headFree_zero],
      fun _ _ => iff_of_true rfl trivial⟩
  | length next ih =>
    rw [parse, h.length_content]
    exact ih s.used_len h
  | read n what next ih =>
    rw [parse, h.length_content, run]
    split_ifs with hn
    · exact ⟨rfl, 0, Nat.zero_le _, (Serial.headFree_zero s).symm,
        fun _ _ => iff_of_true rfl (.inl hn)⟩
    · obtain ⟨hin, hcontent⟩ := Serial.headFree_spec h (not_lt.1 hn)
      obtain ⟨hval, k, hk, hs, hfirst⟩ := ih (s.content.take n) hin
      have hused : (s.headFree n).used_len = s.used_len - n := rfl
      rw [hused] at hk hfirst
      refine ⟨by rw [hval, hcontent], n + k, by omega, ?_, fun what hwhat => ?_⟩
      · rw [hs, Serial.headFree_headFree]
      · rw [Nat.add_eq_zero_iff, hfirst what hwhat, ThrowsFirst, or_iff_right hn]
        refine and_congr_right fun hzero => ?_
        rw [hzero, List.take_zero, Nat.sub_zero]

end Unserial

namespace Serial

variable {α : Type*} {u : Unserial α} {s : Serial}

/-- `unserial_peek`: the length is put back once the value has been read. -/
def unserialPeek (fresh : ℕ → UInt8) (s : Serial) (u : Unserial α) : Except String α × Serial :=
  match u.run s with
  | (.ok val, s') => (.ok val, s'.headAlloc fresh (s.used_len - s'.used_len))
  | (.error what, s') => (.error what, s')

/-- An `unserial_peek` which throws leaves the content. -/
def PeekKeeps (fresh : ℕ → UInt8) (s : Serial) (u : Unserial α) : Prop :=
  ∀ what, (s.unserialPeek fresh u).1 = .error what →
    (s.unserialPeek fresh u).2.content = s.content

theorem unserialPeek_of_error {fresh : ℕ → UInt8} {what : String}
    (h : (u.run s).1 = .error what) : s.unserialPeek fresh u = u.run s := by
  rw [unserialPeek]
  rcases hrun : u.run s with ⟨val | what', s'⟩
  · rfl
  · rw [hrun] at h
    cases h

theorem unserialPeek_fst {fresh : ℕ → UInt8} : (s.unserialPeek fresh u).1 = (u.run s).1 := by
  rw [unserialPeek]
  rcases u.run s with ⟨val | what, s'⟩
  · rfl
  · rfl

/-- **An `unserial_peek` which reads its value** leaves the serial as it was. -/
theorem unserialPeek_of_ok (h : s.Inside) {fresh : ℕ → UInt8} {val : α}
    (hval : u.parse s.content = .ok val) : s.unserialPeek fresh u = (.ok val, s) := by
  obtain ⟨hparse, n, hn, hs, -⟩ := u.run_spec h
  have hrun : u.run s = (.ok val, s.headFree n) := Prod.ext (hparse.trans hval) hs
  have hbeg := h.beg
  rw [unserialPeek, hrun]
  refine Prod.ext rfl ?_
  have hback : s.used_len - (s.headFree n).used_len = n := by
    show s.used_len - (s.used_len - n) = n
    omega
  have hroom : ¬(s.headFree n).headFreelen < n := by
    show ¬s.used_ptr + n < n
    omega
  dsimp only
  rw [hback, headAlloc, if_neg hroom]
  show Serial.mk _ (s.used_ptr + n - n) (s.used_len - n + n) _ _ = s
  rw [add_sub_cancel_right, Nat.sub_add_cancel hn]
  rfl

/-- **An `unserial_peek` leaves the content** on a failure exactly when the value is read, or the
failure comes before a byte has been. -/
theorem peekKeeps_iff (h : s.Inside) {fresh : ℕ → UInt8} :
    s.PeekKeeps fresh u ↔
      (∃ val, u.parse s.content = .ok val) ∨ u.ThrowsFirst s.used_len := by
  obtain ⟨hparse, n, hn, hs, hfirst⟩ := u.run_spec h
  rcases hval : u.parse s.content with what | val
  · have herror : (u.run s).1 = .error what := hparse.trans hval
    have hcontent := (headFree_spec h hn).2
    rw [or_iff_right (by rintro ⟨val, hok⟩; cases hok), ← hfirst what herror]
    constructor
    · intro hkeeps
      have hsame := hkeeps what (unserialPeek_fst.trans herror)
      rw [unserialPeek_of_error herror, hs, hcontent] at hsame
      have hlength := congrArg List.length hsame
      rw [List.length_drop, h.length_content] at hlength
      omega
    · rintro rfl what' hwhat
      rw [unserialPeek_of_error herror, hs, hcontent, List.drop_zero]
  · refine iff_of_true (fun what hwhat => ?_) (.inl ⟨val, rfl⟩)
    rw [unserialPeek_of_ok h hval] at hwhat
    cases hwhat

end Serial

namespace SerialBounds

/-- **The bounds of a serial**: a call for too many bytes throws and changes nothing exactly when
its check neither wraps nor is an assertion, and a failed `unserial_peek` changes nothing exactly
when no field has been read before it fails. -/
theorem bounded_iff {w : ℕ} {s : Serial} (h : s.Inside) (hlen : s.used_len < 2 ^ w)
    (dbg_assert : Bool) (call : SerialBoundCall w) (fresh : ℕ → UInt8) {α : Type*}
    (u : Unserial α) :
    (Raises dbg_assert s call ∧ s.PeekKeeps fresh u) ↔
      (call.Beyond s.used_len → call.Caught dbg_assert s.used_len) ∧
        ((∃ val, u.parse s.content = .ok val) ∨ u.ThrowsFirst s.used_len) :=
  and_congr (raises_iff hlen) (Serial.peekKeeps_iff h)

/-- Four bytes, which are the length of a string of five. -/
def cutString : Serial := Serial.ofCtor (fun _ => 0) (.nocopy [0, 0, 0, 5])

theorem bounded_iff_cutString :
    (Raises false cutString (.headPeek 5 : SerialBoundCall 64) ∧
        cutString.PeekKeeps (fun _ => 0) Unserial.stdString) ↔
      ((.headPeek 5 : SerialBoundCall 64).Beyond 4 →
          (.headPeek 5 : SerialBoundCall 64).Caught false 4) ∧
        ((∃ val, Unserial.stdString.parse cutString.content = .ok val) ∨
          Unserial.stdString.ThrowsFirst 4) :=
  bounded_iff (Serial.inside_ofCtor _ _) (by decide) false _ _ _

/-- The last five bytes of the four are not refused, and the length of the string is gone once
the string is found to be too short. -/
theorem not_bounded :
    ¬ Raises false cutString (.tailPeek 5 : SerialBoundCall 64) ∧
      ¬ Raises false cutString (.range (BitVec.ofNat 64 (2 ^ 64 - 1)) 2) ∧
        ¬ cutString.PeekKeeps (fun _ => 0) Unserial.stdString := by
  refine ⟨fun h => ?_, fun h => ?_, fun h => ?_⟩
  · have hbeyond : 4 < (5 : BitVec 64).toNat := by decide
    obtain ⟨⟨what, hraised⟩, -⟩ := h hbeyond
    exact @tailPeek_ne_raised false 64 cutString 5 what hraised
  · have hbeyond : 4 < (BitVec.ofNat 64 (2 ^ 64 - 1)).toNat + (2 : BitVec 64).toNat := by decide
    have hcaught : 4 < (BitVec.ofNat 64 (2 ^ 64 - 1) + 2).toNat :=
      (raises_iff (by decide)).1 h hbeyond
    exact absurd hcaught (by decide)
  · have hsame := h "std::string Payload Too Short" rfl
    exact absurd hsame (by decide)

end SerialBounds

end Neoip
